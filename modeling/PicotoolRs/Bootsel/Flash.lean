import PicotoolRs.Bootsel.Steps
import PicotoolRs.Run.Framing

/-!
# PicotoolRs.Bootsel.Flash

What the steps of a flasher leave in the flash of a device.

Of a board it is enough to know that a change stays where it is asked for
(`Board.Local`) to bound what may have changed. On a board that erases and
programs NOR flash properly (`Board.Healthy`) the bytes are known: those of
`Nor.applyAll`.
-/

namespace PicotoolRs

open Lib Constants

/-! ### Healthy boards -/

/-- RAM with the bytes of a run. -/
def stored (m : Nor.Memory) (r : Run UInt8) : Nor.Memory := fun a =>
  if r.start ≤ a then (r.data[a - r.start]?).getD (m a) else m a

/-- Memory with the bytes of a run written: programmed in flash, stored in RAM. -/
def written (m : Nor.Memory) (r : Run UInt8) : Nor.Memory := fun a =>
  if InFlash a then Nor.program m r a else stored m r a

theorem stored_of_not_covers {m : Nor.Memory} {r : Run UInt8} {a : Nat} (h : ¬ r.Covers a) :
    stored m r a = m a := by
  unfold stored
  split
  · next hle =>
    cases hv : r.data[a - r.start]? with
    | none => rfl
    | some v => exact absurd (Run.Holds.covers ⟨hle, hv⟩) h
  · rfl

theorem stored_of_holds {m : Nor.Memory} {r : Run UInt8} {a : Nat} {v : UInt8}
    (h : r.Holds a v) : stored m r a = v := by
  simp [stored, h.1, h.2]

/-- The board does what is asked of it. Code that is executed does not write to
flash. -/
structure Board.Healthy (board : Board) : Prop where
  erase : ∀ {addr size m m'}, board.does (.erase addr size) m m' →
    m' = Nor.erase m addr.toNat size.toNat
  write : ∀ {addr data m m'}, board.does (.write addr data) m m' →
    m' = written m ⟨addr.toNat, data⟩
  exec : ∀ {addr m m'}, board.does (.exec addr) m m' → ∀ a, InFlash a → m' a = m a

theorem Board.Healthy.local {board : Board} (h : board.Healthy) : board.Local := by
  intro job m m' hdoes a ha
  cases job with
  | erase addr size =>
      rw [h.erase hdoes] at ha
      by_contra hno
      have hout : ¬ (addr.toNat ≤ a ∧ a < addr.toNat + size.toNat) := hno
      simp [Nor.erase, hout] at ha
  | write addr data =>
      rw [h.write hdoes] at ha
      by_contra hno
      have hcov : ¬ (⟨addr.toNat, data⟩ : Run UInt8).Covers a := hno
      refine ha ?_
      rw [written, Nor.program_of_not_covers hcov, stored_of_not_covers hcov, ite_self]
  | exec addr => exact fun hflash => ha (h.exec hdoes a hflash)

/-! ### Steps -/

section Steps

variable {board : Board} {steps : List Step} {tr : BusTrace} {b b' : Bootsel} {a : Nat}

/-- A step that passed has changed flash only where its command does. -/
theorem Board.Passed.flash (hlocal : board.Local) {step : Step} (hcarries : step.Carries)
    (h : board.Passed step.cmd step.data tr b b') (hflash : InFlash a)
    (ha : b'.mem a ≠ b.mem a) : step.cmd.Touches a := by
  have hchanges := h.changes
  have htouch : ∀ job, step.cmd.job step.data = some job → job.Touches a := by
    intro job hjob
    rw [hjob] at hchanges
    exact hlocal job _ _ hchanges a ha
  cases step with
  | exec addr => exact absurd hflash (htouch (.exec addr) rfl)
  | flashErase addr size => exact htouch (.erase addr size) rfl
  | flashWrite piece =>
      obtain ⟨hlo, hhi⟩ := htouch (.write piece.addr piece.data) rfl
      obtain ⟨-, hlen⟩ := hcarries
      have hlen : piece.data.length = (U32.ofUsize piece.data.length).toNat := hlen
      exact ⟨hlo, by omega⟩
  | _ => exact absurd (congrFun hchanges a) ha

/-- Steps that passed have changed flash only where one of their commands does. -/
theorem Board.PassedAll.flash (hlocal : board.Local) (hcarries : ∀ step ∈ steps, step.Carries)
    (h : board.PassedAll steps tr b b') (hflash : InFlash a) (ha : b'.mem a ≠ b.mem a) :
    ∃ step ∈ steps, step.cmd.Touches a := by
  induction h with
  | nil => exact absurd rfl ha
  | @cons step steps t₁ t₂ b b₁ b' hstep _ _ ih =>
      rw [List.forall_mem_cons] at hcarries
      by_cases hb₁ : b₁.mem a = b.mem a
      · rw [← hb₁] at ha
        obtain ⟨s, hs, htouch⟩ := ih hcarries.2 ha
        exact ⟨s, List.mem_cons_of_mem _ hs, htouch⟩
      · exact ⟨step, List.mem_cons_self, hstep.flash hlocal hcarries.1 hflash hb₁⟩

/-- Steps that were cut off have changed flash only where one of their commands
does. -/
theorem Board.CutAll.flash (hlocal : board.Local) (hcarries : ∀ step ∈ steps, step.Carries)
    (h : board.CutAll steps tr b b') (hflash : InFlash a) (ha : b'.mem a ≠ b.mem a) :
    ∃ step ∈ steps, step.cmd.Touches a := by
  cases h with
  | between hsplit hdone =>
      subst hsplit
      obtain ⟨s, hs, htouch⟩ :=
        hdone.flash hlocal (fun s hs => hcarries s (by simp [hs])) hflash ha
      exact ⟨s, by simp [hs], htouch⟩
  | @within done rest step t₁ t₂ _ b₁ _ hsplit hdone _ hin _ =>
      subst hsplit
      by_cases hb₁ : b₁.mem a = b.mem a
      · rw [← hb₁] at ha
        exact ⟨step, by simp, hin.flash hlocal a hflash ha⟩
      · obtain ⟨s, hs, htouch⟩ :=
          hdone.flash hlocal (fun s hs => hcarries s (by simp [hs])) hflash hb₁
        exact ⟨s, by simp [hs], htouch⟩

/-- The stage is harmless if no step announces data for flash. -/
theorem Board.CutAll.harmless (h : board.CutAll steps tr b b') (hb : b.stage.Harmless)
    (hwrites : ∀ step ∈ steps, ∀ addr size, step.cmd = .write addr size →
      (Stage.takesData addr size).Harmless) : b'.stage.Harmless := by
  cases h with
  | between _ hdone => exact hdone.harmless hb
  | within hsplit _ _ hin _ =>
      exact hin.stage fun addr size => hwrites _ (by simp [hsplit]) addr size

/-- On a healthy board, a step that passed has done to flash what NOR flash does.
-/
theorem Board.Passed.mem (hboard : board.Healthy) {step : Step}
    (h : board.Passed step.cmd step.data tr b b') (hflash : InFlash a) :
    b'.mem a = Nor.applyAll b.mem (step.norOp.toList) a := by
  have hchanges := h.changes
  cases step with
  | exec addr => exact hboard.exec hchanges a hflash
  | flashErase addr size => exact congrFun (hboard.erase hchanges) a
  | flashWrite piece =>
      have hwritten := congrFun (hboard.write hchanges) a
      rw [written, if_pos hflash] at hwritten
      exact hwritten
  | _ => exact congrFun hchanges a

/-- On a healthy board, steps that passed have done to flash what NOR flash does.
-/
theorem Board.PassedAll.mem (hboard : board.Healthy) (h : board.PassedAll steps tr b b')
    (hflash : InFlash a) : b'.mem a = Nor.applyAll b.mem (steps.filterMap Step.norOp) a := by
  induction h with
  | nil => rfl
  | @cons step steps t₁ t₂ b b₁ b' hstep _ _ ih =>
      have hops : (step :: steps).filterMap Step.norOp =
          step.norOp.toList ++ steps.filterMap Step.norOp := by
        cases hop : step.norOp with
        | none => rw [List.filterMap_cons_none hop, Option.toList_none, List.nil_append]
        | some op => rw [List.filterMap_cons_some hop, Option.toList_some, List.singleton_append]
      rw [ih, hops, Nor.applyAll_append]
      exact Nor.applyAll_congr (hstep.mem hboard hflash) _

end Steps

end PicotoolRs
