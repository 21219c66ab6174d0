import PicotoolRs.Run.Command
import PicotoolRs.Run.Order

/-!
# PicotoolRs.Run.Requests

What the tool asks of `nusb`.

`nusb` panics over a bulk IN transfer whose length is not a nonzero multiple of the
maximum packet size, which is why `read_in` rounds up. No run ever submits such a
transfer, and no transfer moves more than a sector, rounded up to whole packets. Nor
does a run take anything else for a success than the transfer says: every OUT with
bytes is checked for its own length and every data phase for the length that its
command declared, and only what carries nothing is not checked (`requests_sound`). The
argument is where a request comes from: the reset, or the script of one of the steps
(`sound_script`).
-/

namespace PicotoolRs

open Lib Constants

/-- `nusb` takes the transfer, and its buffer is at most a sector, rounded up to
whole packets. -/
def Transfer.Submittable (maxPacket : Nat) : Transfer → Prop
  | .controlOut _ _ _ => True
  | .bulkOut buf => buf.length ≤ writeChunk
  | .bulkIn requested =>
      0 < requested ∧ maxPacket ∣ requested ∧ requested < writeChunk + maxPacket

/-- The bytes that a command asks the device for. -/
def Command.asked (cmd : Command) : Nat :=
  match cmd.dataPhase with
  | .deviceToHost n => n.toNat
  | .none | .hostToDevice _ => 0

/-- The bytes that the last of the commands asks for. -/
def declared (sent : List Command) : Nat := (sent.getLast?.map Command.asked).getD 0

/-- What the host takes for a success after the commands `sent`. An OUT transfer
with bytes has to have sent all of them, and an IN transfer, which is the data phase
if the last command asks for data, has to have brought what that command asks for.
The acknowledgements and the reset, which carry nothing, need the status only. -/
def Transfer.Accepts (sent : List Command) (t : Transfer) (c : Completion) : Prop :=
  c.status = .ok () ∧
    match t with
    | .controlOut _ _ _ => True
    | .bulkOut buf => buf ≠ [] → c.actualLen = buf.length
    | .bulkIn _ => declared sent ≤ c.actualLen

/-- The request, made after the commands `sent`, can be submitted and met, and its
success is what the transfer says. -/
structure Request.Sound (maxPacket : Nat) (sent : List Command) (r : Request) : Prop where
  submittable : r.transfer.Submittable maxPacket
  /-- A completion with the buffer full is a success. -/
  satisfiable : Succeeded (r, r.completed)
  /-- The check of the length is the one that belongs to the transfer. -/
  accepts : ∀ c, Succeeded (r, c) ↔ r.transfer.Accepts sent c

/-! ### Requests of a step -/

/-- Rounding up to whole packets, of which there is at least one. -/
theorem wholePackets_bounds {len maxPacket : Nat} (h : 0 < maxPacket) (hlen : len ≤ writeChunk) :
    let packets := len / maxPacket + if len % maxPacket = 0 then 0 else 1
    0 < max packets 1 * maxPacket ∧ len ≤ max packets 1 * maxPacket ∧
      max packets 1 * maxPacket < writeChunk + maxPacket := by
  intro packets
  have hdiv := Nat.div_add_mod len maxPacket
  have hmod := Nat.mod_lt len h
  have hpos : 1 ≤ max packets 1 := Nat.le_max_right _ _
  have hwrite := writeChunk_pos
  have hpackets : packets * maxPacket =
      maxPacket * (len / maxPacket) + if len % maxPacket = 0 then 0 else maxPacket := by
    rw [Nat.mul_comm, Nat.mul_add]
    split <;> simp
  have hle : len ≤ packets * maxPacket := by
    rw [hpackets]
    split <;> omega
  have hlt : packets * maxPacket < len + maxPacket := by
    rw [hpackets]
    split <;> omega
  refine ⟨Nat.mul_pos hpos h, hle.trans (Nat.mul_le_mul_right _ (Nat.le_max_left _ _)), ?_⟩
  rcases Nat.le_total packets 1 with hone | hone
  · rw [Nat.max_eq_right hone]
    omega
  · rw [Nat.max_eq_left hone]
    omega

theorem declared_concat (sent : List Command) (cmd : Command) :
    declared (sent ++ [cmd]) = cmd.asked := by
  simp [declared]

/-- The reset. -/
theorem sound_reset (maxPacket : Nat) (sent : List Command) (d : Device) :
    (Request.reset d).Sound maxPacket sent where
  submittable := trivial
  satisfiable := rfl
  accepts _ := succeeded_iff

section Sound

variable {d : Device} {maxPacket : Nat} {sent : List Command} {op : Op} {timeout : Nat}

theorem sound_out {buf : List UInt8} (hne : buf ≠ []) (hlen : buf.length ≤ writeChunk) :
    (Request.out buf op timeout).Sound maxPacket sent where
  submittable := hlen
  satisfiable := succeeded_iff.mpr ⟨rfl, rfl⟩
  accepts _ := succeeded_iff.trans (and_congr_right fun _ => ⟨fun h _ => h, fun h => h hne⟩)

/-- The packet of a command. -/
theorem sound_packet (cmd : Command) : (cmd.packet d).Sound maxPacket sent := by
  have hlen := cmd.length_encode d.token
  refine sound_out (fun hnil => ?_) (hlen.trans_le (by decide))
  rw [hnil] at hlen
  exact absurd hlen (by decide)

theorem sound_outAck : (Request.outAck op).Sound maxPacket sent where
  submittable := Nat.zero_le _
  satisfiable := rfl
  accepts _ := succeeded_iff.trans (and_congr_right fun _ =>
    iff_of_true trivial fun h => absurd rfl h)

variable (hmax : 0 < d.inMaxPacket)

include hmax

/-- An acknowledgement, if the last command asks for nothing. -/
theorem sound_inAck (hsent : declared sent = 0) :
    (Request.inAck d op timeout).Sound d.inMaxPacket sent where
  submittable := ⟨hmax, Nat.dvd_refl _, Nat.lt_add_of_pos_left writeChunk_pos⟩
  satisfiable := rfl
  accepts _ := succeeded_iff.trans (and_congr_right fun _ =>
    iff_of_true trivial (hsent.trans_le (Nat.zero_le _)))

/-- A data phase, if its bytes are what the last command asks for. -/
theorem sound_inData {len : Nat} (hsent : declared sent = len) (hlen : len ≤ writeChunk) :
    (Request.inData d len op timeout).Sound d.inMaxPacket sent := by
  obtain ⟨hpos, hle, hlt⟩ := wholePackets_bounds hmax hlen
  refine ⟨⟨hpos, Nat.dvd_mul_left _ _, hlt⟩, succeeded_iff.mpr ⟨rfl, hle⟩, fun c => ?_⟩
  refine succeeded_iff.trans (and_congr_right fun _ => ?_)
  rw [hsent]
  exact Iff.rfl

/-- What follows the packet of a command, of which a data phase towards the device
carries bytes. -/
theorem sound_rest {cmd : Command} {data : List UInt8} (hsent : declared sent = cmd.asked)
    (hout : ∀ n, cmd.dataPhase = .hostToDevice n → data ≠ [] ∧ data.length ≤ writeChunk)
    (hin : cmd.asked ≤ writeChunk) :
    ∀ r ∈ cmd.rest d data, r.Sound d.inMaxPacket sent := by
  unfold Command.rest
  cases hphase : cmd.dataPhase with
  | none =>
      have hnone : cmd.asked = 0 := by rw [Command.asked, hphase]
      simpa using sound_inAck hmax (hsent.trans hnone)
  | hostToDevice n =>
      have hnone : cmd.asked = 0 := by rw [Command.asked, hphase]
      obtain ⟨hne, hlen⟩ := hout n hphase
      simpa using ⟨sound_out hne hlen, sound_inAck hmax (hsent.trans hnone)⟩
  | deviceToHost n =>
      have hasked : cmd.asked = n.toNat := by rw [Command.asked, hphase]
      rw [hasked] at hsent hin
      simpa using ⟨sound_inData hmax hsent hin, sound_outAck⟩

end Sound

/-- The step moves at most a sector, and writes at least a byte. -/
def Step.Moderate : Step → Prop
  | .flashWrite piece => piece.data ≠ [] ∧ piece.data.length ≤ writeChunk
  | .flashRead _ len => len ≤ writeChunk
  | .compare piece => piece.data.length ≤ writeChunk
  | _ => True

/-- A transfer of a moderate step, after those in front of it. -/
theorem sound_script {step : Step} {d : Device} (h : step.Moderate) (hmax : 0 < d.inMaxPacket)
    {pre post : BusTrace} {ev : Request × Completion}
    (hscript : (pre ++ ev :: post).map Prod.fst <+: step.script d) (sent : List Command) :
    ev.1.Sound d.inMaxPacket (sent ++ commands pre) := by
  have hread : ∀ {len : Nat}, len ≤ writeChunk → (U32.ofUsize len).toNat ≤ writeChunk := by
    intro len hlen
    rwa [U32.toNat_ofUsize (hlen.trans_lt (by decide))]
  cases pre with
  | nil =>
      rw [List.nil_append, List.map_cons, Step.script, Command.script,
        List.cons_prefix_cons] at hscript
      rw [hscript.1]
      exact sound_packet _
  | cons p pre =>
      -- the packet is in front of it, so the last command is that of the step
      have hfront : (p :: pre).map Prod.fst <+: step.cmd.script d step.data :=
        List.IsPrefix.trans (by simp) hscript
      have hcmd : commands (p :: pre) = [step.cmd] := commands_of_prefix hfront (by simp)
      rw [hcmd]
      rw [List.cons_append, List.map_cons, Step.script, Command.script,
        List.cons_prefix_cons] at hscript
      have hmem : ev.1 ∈ step.cmd.rest d step.data := hscript.2.subset (by simp)
      refine sound_rest hmax (declared_concat _ _) ?_ ?_ ev.1 hmem
      · intro n hphase
        cases step with
        | flashWrite piece => exact h
        | _ => simp [Step.cmd, Command.dataPhase] at hphase
      · cases step with
        | flashRead addr len => exact hread h
        | compare piece => exact hread h
        | _ => exact Nat.zero_le _

/-! ### Requests of a run -/

/-- Every request of a trace is sound, after the commands `sent` and those in front
of it. -/
def SoundTrace (maxPacket : Nat) (sent : List Command) (tr : BusTrace) : Prop :=
  ∀ pre ev post, tr = pre ++ ev :: post → ev.1.Sound maxPacket (sent ++ commands pre)

theorem soundTrace_nil (maxPacket : Nat) (sent : List Command) : SoundTrace maxPacket sent [] := by
  intro pre ev post h
  simp at h

theorem SoundTrace.append {maxPacket : Nat} {sent : List Command} {t₁ t₂ : BusTrace}
    (h₁ : SoundTrace maxPacket sent t₁) (h₂ : SoundTrace maxPacket (sent ++ commands t₁) t₂) :
    SoundTrace maxPacket sent (t₁ ++ t₂) := by
  intro pre ev post heq
  rcases List.append_eq_append_iff.mp heq with ⟨a, rfl, ha⟩ | ⟨a, rfl, ha⟩
  · rw [commands_append, ← List.append_assoc]
    exact h₂ a ev post ha
  · cases a with
    | nil =>
        have hfirst := h₂ [] ev post ha.symm
        rwa [List.append_nil, show commands [] = [] from rfl, List.append_nil] at hfirst
    | cons b a =>
        obtain ⟨rfl, rfl⟩ := List.cons.inj ha
        exact h₁ pre ev a rfl

/-- The reset is in front. -/
theorem SoundTrace.reset {maxPacket : Nat} {sent : List Command} {tr : BusTrace}
    (h : SoundTrace maxPacket sent tr) (d : Device) (c : Completion) :
    SoundTrace maxPacket sent ((.reset d, c) :: tr) := by
  have hreset : SoundTrace maxPacket sent [(.reset d, c)] := by
    intro pre ev post heq
    obtain ⟨rfl, rfl, rfl⟩ : pre = [] ∧ ev = (.reset d, c) ∧ post = [] := by
      cases pre <;> simp_all
    exact sound_reset ..
  refine hreset.append ?_
  rwa [commands_reset, show commands [] = [] from rfl, List.append_nil]

/-- The requests of moderate steps are sound. -/
theorem steps_sound {steps : List Step} {d d' : Device} {tr : BusTrace}
    {o : Outcome LoadError Unit} (h : LoopRuns Step.perform steps d tr o d')
    (hfits : ∀ step ∈ steps, step.Fits) (hmoderate : ∀ step ∈ steps, step.Moderate)
    (hmax : 0 < d.inMaxPacket) (sent : List Command) :
    d'.inMaxPacket = d.inMaxPacket ∧ SoundTrace d.inMaxPacket sent tr := by
  refine ⟨(steps_ne_panic h hfits hmax).2, fun pre ev post heq => ?_⟩
  subst heq
  obtain ⟨done, step, rest, d₁, d₂, t₁, t₂, t₃, o₁, rfl, rfl, hdone, hstep, -⟩ := h.split_at
  obtain ⟨-, hd⟩ := steps_ne_panic hdone (fun s hs => hfits s (by simp [hs])) hmax
  obtain ⟨rfl, hrun⟩ := perform_runs (hfits step (by simp)) hstep
  obtain ⟨o', ha⟩ := hrun.attempt
  have hbump : d₁.bump.inMaxPacket = d.inMaxPacket := hd
  rw [commands_append, ← List.append_assoc, ← hbump]
  rw [← hbump] at hmax
  exact sound_script (hmoderate step (by simp)) hmax ha.map_fst_prefix _

theorem detectSteps_moderate : ∀ step ∈ detectSteps, step.Moderate := by
  intro step hstep
  simp only [detectSteps, stubSteps, List.mem_append, List.mem_cons, List.not_mem_nil,
    or_false] at hstep
  rcases hstep with (rfl | rfl | rfl | rfl) | rfl
  · trivial
  · trivial
  · exact ⟨by decide, (by decide : flashIdStub.length ≤ writeChunk)⟩
  · trivial
  · exact (by decide : 3 ≤ writeChunk)

theorem loadPlan_moderate (erases : List (UInt32 × UInt32)) (segs : List Segment) (verify : Bool) :
    ∀ step ∈ loadPlan erases segs verify, step.Moderate := by
  intro step hstep
  cases loadStep_of_mem hstep with
  | flashWrite hp => exact length_le_of_mem_pieces hp
  | compare hp => exact (length_le_of_mem_pieces hp).2
  | _ => trivial

/-- Whatever the device answers, a run submits only transfers that `nusb` takes, of
at most a sector, and asks of each what it can meet and what its command says, if the
endpoint has a maximum packet size. -/
theorem requests_sound {w : World} {argv : List Str} {args : LoadArgs} {s s' : Unit}
    {tr : BusTrace} {o : Outcome RunError Unit} {maxPacket : Nat}
    (hopen : ∀ d, Device.found w (!args.anyDevice) (resolveFd w args.fd) = .ok d →
      d.inMaxPacket = maxPacket) (hmax : 0 < maxPacket)
    (h : (runLoad w argv args).Runs s tr o s') :
    ∀ pre ev post, tr = pre ++ ev :: post → ev.1.Sound maxPacket (commands pre) := by
  have hdetected : ∀ {d d' : Device} {t : BusTrace} {o : Outcome LoadError Unit},
      Device.found w (!args.anyDevice) (resolveFd w args.fd) = .ok d →
      LoopRuns Step.perform detectSteps d t o d' →
      d'.inMaxPacket = maxPacket ∧ SoundTrace maxPacket [] t := by
    intro d d' t o hfound hdetect
    obtain rfl := hopen d hfound
    exact steps_sound hdetect detectSteps_fits detectSteps_moderate hmax []
  have hsound : SoundTrace maxPacket [] tr := by
    cases runLoad_steps h with
    | none => exact soundTrace_nil _ _
    | reset _ => exact (soundTrace_nil _ _).reset _ _
    | detecting hfound hdetect => exact (hdetected hfound hdetect).2.reset _ _
    | loading hfound hdetect _ _ _ _ hload =>
        obtain ⟨rfl, hfirst⟩ := hdetected hfound hdetect
        have hsecond := steps_sound hload (loadPlan_fits _ _ _) (loadPlan_moderate _ _ _) hmax
        exact (hfirst.append (hsecond _).2).reset _ _
  exact hsound

/-- A device that completes every transfer: twelve commands, and the reset. -/
theorem requests_sound_oneDevice :
    let args : LoadArgs := ⟨[], true, false, none, none⟩
    let run := (runLoad (oneDevice oneByteFile) [] args ()).exec Request.completed
    (commands run.1).length = 12 ∧
      ∀ pre ev post, run.1 = pre ++ ev :: post → ev.1.Sound 64 (commands pre) := by
  intro args run
  have hfound : Device.found (oneDevice oneByteFile) true none = .ok ⟨0, 64, 0⟩ := by
    decide +kernel
  have hopen : ∀ d, Device.found (oneDevice oneByteFile) (!args.anyDevice)
      (resolveFd (oneDevice oneByteFile) args.fd) = .ok d → d.inMaxPacket = 64 := by
    intro d hd
    obtain rfl := Outcome.ok.inj (hfound.symm.trans hd)
    rfl
  refine ⟨by decide +kernel, ?_⟩
  exact requests_sound hopen (by decide) (Session.exec_runs Request.completed _ ())

end PicotoolRs
