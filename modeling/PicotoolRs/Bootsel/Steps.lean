import PicotoolRs.Bootsel.Script
import PicotoolRs.Load.Steps

/-!
# PicotoolRs.Bootsel.Steps

What the device makes of the steps of a flasher.

`PassedAll` is a sequence of steps that the device has carried out one by one. A
run of steps that goes through is one (`steps_passed`). Of a run that was cut off
or that failed, the first steps are, and the next one has changed flash at most
where it was about to (`steps_cut`).
-/

namespace PicotoolRs

open Lib Constants

/-- The device has carried out the steps. -/
inductive Board.PassedAll (board : Board) : List Step → BusTrace → Bootsel → Bootsel → Prop
  | nil {b : Bootsel} : PassedAll board [] [] b b
  | cons {step : Step} {steps : List Step} {t₁ t₂ : BusTrace} {b b₁ b' : Bootsel} :
      board.Passed step.cmd step.data t₁ b b₁ → step.Agrees t₁ →
      PassedAll board steps t₂ b₁ b' → PassedAll board (step :: steps) (t₁ ++ t₂) b b'

namespace Board.PassedAll

variable {board : Board} {steps : List Step} {tr : BusTrace} {b b' : Bootsel}

/-- The device is left idle. -/
theorem stage (h : board.PassedAll steps tr b b') : b'.stage = b.stage ∨ b'.stage = .idle := by
  induction h with
  | nil => exact .inl rfl
  | cons hstep _ _ ih =>
      rcases ih with ih | ih
      · exact .inr (ih.trans hstep.stage)
      · exact .inr ih

theorem harmless (h : board.PassedAll steps tr b b') (hb : b.stage.Harmless) :
    b'.stage.Harmless := by
  rcases h.stage with h | h
  · rwa [h]
  · simp [h]

theorem append {steps' : List Step} {tr' : BusTrace} {b'' : Bootsel}
    (h₁ : board.PassedAll steps tr b b') (h₂ : board.PassedAll steps' tr' b' b'') :
    board.PassedAll (steps ++ steps') (tr ++ tr') b b'' := by
  induction h₁ with
  | nil => exact h₂
  | cons hstep hagrees _ ih =>
      rw [List.append_assoc]
      exact .cons hstep hagrees (ih h₂)

theorem split {steps₁ steps₂ : List Step} (h : board.PassedAll (steps₁ ++ steps₂) tr b b') :
    ∃ t₁ t₂ b₁, tr = t₁ ++ t₂ ∧ board.PassedAll steps₁ t₁ b b₁ ∧
      board.PassedAll steps₂ t₂ b₁ b' := by
  induction steps₁ generalizing tr b with
  | nil => exact ⟨[], tr, b, rfl, .nil, h⟩
  | cons step steps₁ ih =>
      cases h with
      | cons hstep hagrees h =>
          obtain ⟨t₁, t₂, b₁, rfl, h₁, h₂⟩ := ih h
          exact ⟨_, t₂, b₁, (List.append_assoc ..).symm, .cons hstep hagrees h₁, h₂⟩

end Board.PassedAll

section Steps

variable {board : Board} {d d' : Device} {tr : BusTrace} {b b' : Bootsel}

/-- A step that went through, other than a reboot. -/
theorem StepRun.passedBy {step : Step} (h : StepRun d step tr (.ok ())) (hno : step ≠ .reboot)
    (hserves : Peer.Serves board.Reacts b tr b') (hb : b.stage.Harmless) :
    board.Passed step.cmd step.data tr b b' ∧ step.Agrees tr := by
  cases h with
  | passed ha hagrees => exact ⟨script_passed ha hserves hb, hagrees⟩
  | rebooting _ _ => exact absurd rfl hno

/-- Steps that went through, without a reboot. -/
theorem steps_passed {steps : List Step} (h : LoopRuns Step.perform steps d tr (.ok ()) d')
    (hfits : ∀ step ∈ steps, step.Fits) (hno : .reboot ∉ steps)
    (hserves : Peer.Serves board.Reacts b tr b') (hb : b.stage.Harmless) :
    board.PassedAll steps tr b b' := by
  induction steps generalizing d tr b with
  | nil =>
      cases h
      obtain rfl := Peer.serves_nil.mp hserves
      exact .nil
  | cons step steps ih =>
      rw [List.forall_mem_cons] at hfits
      rw [List.mem_cons, not_or] at hno
      cases h with
      | cons hstep hsteps =>
          obtain ⟨b₁, hserves₁, hserves₂⟩ := Peer.serves_append.mp hserves
          obtain ⟨rfl, hrun⟩ := perform_runs hfits.1 hstep
          obtain ⟨hpassed, hagrees⟩ := hrun.passedBy (Ne.symm hno.1) hserves₁ hb
          exact .cons hpassed hagrees
            (ih hsteps hfits.2 hno.2 hserves₂ (by simp [hpassed.stage]))
      | stop _ ho => exact absurd rfl ho

/-- What a device has made of steps that were cut off. -/
inductive Board.CutAll (board : Board) (steps : List Step) : BusTrace → Bootsel → Bootsel → Prop
  /-- It has carried out the first ones. -/
  | between {done rest : List Step} {tr : BusTrace} {b b' : Bootsel} :
      steps = done ++ rest → board.PassedAll done tr b b' → CutAll board steps tr b b'
  /-- It is in the middle of one. -/
  | within {done rest : List Step} {step : Step} {t₁ t₂ : BusTrace} {b b₁ b' : Bootsel} :
      steps = done ++ step :: rest → board.PassedAll done t₁ b b₁ → commands t₂ = [step.cmd] →
      Contained board step.cmd b₁ b' →
      (step.cmd.job step.data = none → b₁.stage = .idle → b'.mem = b₁.mem) →
      CutAll board steps (t₁ ++ t₂) b b'

/-- A step before others that were cut off. -/
theorem Board.CutAll.cons {step : Step} {steps : List Step} {t₁ t₂ : BusTrace} {b₁ : Bootsel}
    (hpassed : board.Passed step.cmd step.data t₁ b b₁) (hagrees : step.Agrees t₁)
    (h : board.CutAll steps t₂ b₁ b') : board.CutAll (step :: steps) (t₁ ++ t₂) b b' := by
  cases h with
  | between hsplit hdone =>
      subst hsplit
      exact .between (List.cons_append ..).symm (.cons hpassed hagrees hdone)
  | within hsplit hdone hcmd hin hquiet =>
      subst hsplit
      rw [← List.append_assoc]
      exact .within (List.cons_append ..).symm (.cons hpassed hagrees hdone) hcmd hin hquiet

/-- The first transfers of the first step. -/
theorem cutAll_of_step {step : Step} {steps : List Step}
    {t₁ t₂ : BusTrace} {o : Outcome LoadError Unit} (hfits : step.Fits)
    (h : step.perform.Runs d (t₁ ++ t₂) o d') (hserves : Peer.Serves board.Reacts b t₁ b')
    (hb : b.stage.Harmless) : board.CutAll (step :: steps) t₁ b b' := by
  by_cases hnil : t₁ = []
  · subst hnil
    obtain rfl := Peer.serves_nil.mp hserves
    exact .between (List.nil_append _).symm .nil
  · obtain ⟨-, hrun⟩ := perform_runs hfits h
    obtain ⟨o', ha⟩ := hrun.attempt
    have hone := commands_of_prefix ha.cut.map_fst_prefix hnil
    exact .within (List.nil_append _).symm .nil hone
      (script_issued ha.cut hserves hb) fun hjob hidle => script_quiet hjob ha.cut hserves hidle

/-- Steps that were cut off, or that failed; only the last may be a reboot. -/
theorem steps_cut {steps : List Step} {t₁ t₂ : BusTrace}
    {o : Outcome LoadError Unit} (h : LoopRuns Step.perform steps d (t₁ ++ t₂) o d')
    (hfits : ∀ step ∈ steps, step.Fits) (hlast : .reboot ∉ steps.dropLast)
    (hserves : Peer.Serves board.Reacts b t₁ b') (hb : b.stage.Harmless) :
    board.CutAll steps t₁ b b' := by
  generalize htr : t₁ ++ t₂ = tr at h
  induction h generalizing t₁ b with
  | nil =>
      obtain ⟨rfl, -⟩ := List.append_eq_nil_iff.mp htr
      obtain rfl := Peer.serves_nil.mp hserves
      exact .between (List.nil_append _).symm .nil
  | @cons step steps d d₁ d' v₁ v₂ o hstep hsteps ih =>
      rw [List.forall_mem_cons] at hfits
      rcases List.append_eq_append_iff.mp htr with ⟨a, rfl, -⟩ | ⟨a, rfl, ha⟩
      · exact cutAll_of_step hfits.1 hstep hserves hb
      · by_cases hreboot : step = .reboot
        · -- the reboot is the last step, and nothing follows it
          obtain rfl : steps = [] := by
            by_contra hne
            rw [List.dropLast_cons_of_ne_nil hne, hreboot] at hlast
            exact hlast List.mem_cons_self
          cases hsteps
          obtain ⟨rfl, -⟩ := List.append_eq_nil_iff.mp ha.symm
          rw [← List.append_nil v₁] at hstep
          rw [List.append_nil] at hserves ⊢
          exact cutAll_of_step hfits.1 hstep hserves hb
        · obtain ⟨b₁, hserves₁, hserves₂⟩ := Peer.serves_append.mp hserves
          obtain ⟨-, hrun⟩ := perform_runs hfits.1 hstep
          obtain ⟨hpassed, hagrees⟩ := hrun.passedBy hreboot hserves₁ hb
          have hlast' : .reboot ∉ steps.dropLast := by
            intro hmem
            cases steps with
            | nil => simp at hmem
            | cons s steps => exact hlast (List.mem_cons_of_mem _ hmem)
          exact (ih hfits.2 hlast' hserves₂ (by simp [hpassed.stage]) ha.symm).cons hpassed hagrees
  | @stop step steps d d' v o hstep _ =>
      subst htr
      rw [List.forall_mem_cons] at hfits
      exact cutAll_of_step hfits.1 hstep hserves hb

/-- Steps that came to an end, or that failed. -/
theorem steps_ended {steps : List Step} {o : Outcome LoadError Unit}
    (h : LoopRuns Step.perform steps d tr o d') (hfits : ∀ step ∈ steps, step.Fits)
    (hlast : .reboot ∉ steps.dropLast) (hserves : Peer.Serves board.Reacts b tr b')
    (hb : b.stage.Harmless) : board.CutAll steps tr b b' := by
  rw [← List.append_nil tr] at h
  exact steps_cut h hfits hlast hserves hb

end Steps

end PicotoolRs
