import PicotoolRs.Run.Command
import PicotoolRs.Run.Order

/-!
# PicotoolRs.Run.Tokens

The tokens of a run.

Every command draws its token from a counter of the connection, whether the
command goes through or not, so that the packets of a run are numbered from one
on (`tokens_consecutive`).
-/

namespace PicotoolRs

open Lib Constants

/-- The token of the command whose packet the transfer is. -/
def Request.token (r : Request) : Option UInt32 :=
  match r.transfer with
  | .bulkOut buf => if r.IsPacket then (Command.decode buf).map Prod.snd else none
  | _ => none

/-- The tokens sent in a trace, in order. -/
def tokens (tr : BusTrace) : List UInt32 := (tr.map Prod.fst).filterMap Request.token

theorem tokens_append (t₁ t₂ : BusTrace) : tokens (t₁ ++ t₂) = tokens t₁ ++ tokens t₂ := by
  rw [tokens, List.map_append, List.filterMap_append, ← tokens, ← tokens]

theorem token_packet (d : Device) (cmd : Command) : (cmd.packet d).token = some d.token := by
  have hpacket : (cmd.packet d).IsPacket := ⟨_, role_packet d cmd⟩
  show (if (cmd.packet d).IsPacket then (Command.decode (cmd.encode d.token)).map Prod.snd
    else none) = some d.token
  rw [if_pos hpacket, Command.decode_encode]
  rfl

theorem token_of_not_isPacket {r : Request} (h : ¬ r.IsPacket) : r.token = none := by
  unfold Request.token
  split
  · rw [if_neg h]
  · rfl

theorem tokens_reset (d : Device) (c : Completion) (tr : BusTrace) :
    tokens ((.reset d, c) :: tr) = tokens tr := rfl

/-- The numbers after `k`. -/
def numbers (k n : Nat) : List UInt32 := (List.range' (k + 1) n).map UInt32.ofNat

theorem numbers_append (k m n : Nat) : numbers k m ++ numbers (k + m) n = numbers k (m + n) := by
  rw [numbers, numbers, numbers, ← List.map_append, ← List.range'_append_1]
  congr 3
  omega

/-- The connection has drawn `k` tokens. -/
def Device.Drawn (d : Device) (k : Nat) : Prop := d.token = UInt32.ofNat k

theorem Device.Drawn.bump {d : Device} {k : Nat} (h : d.Drawn k) : d.bump.Drawn (k + 1) := by
  rw [Device.Drawn, Device.bump, h, UInt32.ofNat_add]
  rfl

/-- A step sends the next token. -/
theorem step_tokens {d : Device} {step : Step} {tr : BusTrace} {o : Outcome LoadError Unit}
    (h : StepRun d step tr o) : tokens tr = [d.token] := by
  obtain ⟨o', ha⟩ := h.attempt
  obtain ⟨c, t, rfl⟩ := h.start
  have hrest : tokens t = [] := by
    have hpre := ha.map_fst_prefix
    rw [List.map_cons, Step.script, Command.script, List.prefix_cons_inj] at hpre
    refine List.filterMap_eq_nil_iff.mpr fun r hr => ?_
    exact token_of_not_isPacket (not_isPacket_of_mem_rest (hpre.subset hr))
  have hpacket := token_packet d step.cmd
  rw [tokens, List.map_cons, List.filterMap_cons_some hpacket, ← tokens, hrest]

/-- Steps send the next tokens, one for each command. -/
theorem steps_tokens {steps : List Step} {d d' : Device} {tr : BusTrace}
    {o : Outcome LoadError Unit} (h : LoopRuns Step.perform steps d tr o d')
    (hfits : ∀ step ∈ steps, step.Fits) {k : Nat} (hd : d.Drawn k) :
    tokens tr = numbers k (commands tr).length ∧ d'.Drawn (k + (commands tr).length) := by
  have hone : ∀ {step : Step} {d : Device} {t : BusTrace} {o : Outcome LoadError Unit} {k : Nat},
      d.Drawn k → StepRun d.bump step t o →
        tokens t = numbers k 1 ∧ (commands t).length = 1 := by
    intro step d t o k hd hrun
    rw [step_tokens hrun, hrun.commands, hd.bump]
    exact ⟨rfl, rfl⟩
  induction h generalizing k with
  | nil => exact ⟨rfl, hd⟩
  | cons hstep _ ih =>
      rw [List.forall_mem_cons] at hfits
      obtain ⟨rfl, hrun⟩ := perform_runs hfits.1 hstep
      obtain ⟨htokens, hlen⟩ := hone hd hrun
      obtain ⟨hrest, hd'⟩ := ih hfits.2 hd.bump
      rw [tokens_append, commands_append, List.length_append, htokens, hrest, hlen,
        numbers_append, ← Nat.add_assoc]
      exact ⟨rfl, hd'⟩
  | stop hstep _ =>
      obtain ⟨rfl, hrun⟩ := perform_runs (hfits _ List.mem_cons_self) hstep
      obtain ⟨htokens, hlen⟩ := hone hd hrun
      rw [htokens, hlen]
      exact ⟨rfl, hd.bump⟩

/-- The numbers are distinct as long as the counter does not wrap around. -/
theorem nodup_numbers {n : Nat} (h : n < 2 ^ 32) : (numbers 0 n).Nodup := by
  refine List.Nodup.map_on (fun a ha b hb heq => ?_) List.nodup_range'
  rw [List.mem_range'_1] at ha hb
  have heq := congrArg UInt32.toNat heq
  rw [UInt32.toNat_ofNat', UInt32.toNat_ofNat', Nat.mod_eq_of_lt (by omega),
    Nat.mod_eq_of_lt (by omega)] at heq
  exact heq

/-- Whatever the device does, the packets of a run are numbered from one on, in the
order of the commands; no number is used twice before the counter wraps around. -/
theorem tokens_consecutive {w : World} {argv : List Str} {args : LoadArgs} {s s' : Unit}
    {tr : BusTrace} {o : Outcome RunError Unit} (h : (runLoad w argv args).Runs s tr o s') :
    tokens tr = numbers 0 (commands tr).length ∧
      ((commands tr).length < 2 ^ 32 → (tokens tr).Nodup) := by
  have htokens : tokens tr = numbers 0 (commands tr).length := by
    -- the counter of a new connection is zero
    have hnew : ∀ {d : Device},
        Device.found w (!args.anyDevice) (resolveFd w args.fd) = .ok d → d.Drawn 0 := by
      intro d hfound
      obtain ⟨usb, -, hconnects⟩ := found_eq_ok.mp hfound
      obtain ⟨-, _, _, _, _, -, -, -, -, -, -, _, -, rfl⟩ := hconnects
      rfl
    cases runLoad_steps h with
    | none => rfl
    | reset _ => rfl
    | detecting hfound hdetect =>
        obtain ⟨htokens, -⟩ := steps_tokens hdetect detectSteps_fits (hnew hfound)
        rwa [tokens_reset, commands_reset]
    | loading hfound hdetect _ _ _ _ hload =>
        obtain ⟨htokens, hd⟩ := steps_tokens hdetect detectSteps_fits (hnew hfound)
        obtain ⟨hrest, -⟩ := steps_tokens hload (loadPlan_fits _ _ _) hd
        rw [tokens_reset, commands_reset, tokens_append, commands_append, List.length_append,
          htokens, hrest, Nat.zero_add, ← numbers_append, Nat.zero_add]
  refine ⟨htokens, fun hlt => ?_⟩
  rw [htokens]
  exact nodup_numbers hlt

theorem tokens_consecutive_oneDevice :
    let run := (runLoad (oneDevice oneByteFile) [] ⟨[], true, false, none, none⟩ ()).exec
      Request.completed
    tokens run.1 = numbers 0 12 ∧ (tokens run.1).Nodup := by
  intro run
  have hall := tokens_consecutive (Session.exec_runs Request.completed
    (runLoad (oneDevice oneByteFile) [] ⟨[], true, false, none, none⟩) ())
  have hlen : (commands run.1).length = 12 := by decide +kernel
  rw [hlen] at hall
  exact ⟨hall.1, hall.2 (by decide)⟩

end PicotoolRs
