import PicotoolRs.Bootsel.Progress

/-!
# PicotoolRs.Bootsel.Working

The detection and the load on a device that works.

Without faults, on a board that does what it is asked to, every step of the two
finds the device ready for it: flash is outside XIP when it is erased and written
and inside when it is read back, every range is one of whole sectors in the flash
there is, and what is read back is what was written. So both go through, and the
detection reads the id of the chip.
-/

namespace PicotoolRs

open Lib Constants

/-- The board does whatever it is asked to. -/
structure Board.Working (board : Board) : Prop extends board.Healthy where
  canErase : ∀ addr size m, ∃ m', board.does (.erase addr size) m m'
  canWrite : ∀ addr data m, ∃ m', board.does (.write addr data) m m'

/-- The stub is in memory. -/
def HoldsStub (m : Nor.Memory) : Prop :=
  content m stubAddr flashIdStub.length = flashIdStub

/-- The three bytes of an id. -/
def idBytes (jedec : UInt8 × UInt8 × UInt8) : List UInt8 := [jedec.1, jedec.2.1, jedec.2.2]

/-- The stub can be executed, and leaves the id of the chip. -/
structure Board.Identifies (board : Board) (jedec : UInt8 × UInt8 × UInt8) : Prop where
  able : ∀ m, HoldsStub m → ∃ m', board.does (.exec stubAddr) m m'
  result : ∀ m m', HoldsStub m → board.does (.exec stubAddr) m m' →
    content m' resultAddr 3 = idBytes jedec

/-- The device waits for a packet, and its flash is that of `m`. -/
structure Waiting (m : Nor.Memory) (b : Bootsel) : Prop where
  idle : b.stage = .idle
  running : b.rebooting = false
  flash : ∀ a, InFlash a → b.mem a = m a

section Steps

variable {board : Board} {tr : BusTrace} {b b' : Bootsel} {m : Nor.Memory}

/-- A step that asks for no change. -/
theorem Board.Passed.mem_eq {step : Step} (h : board.Passed step.cmd step.data tr b b')
    (hjob : step.cmd.job step.data = none) : b'.mem = b.mem := by
  have hchanges := h.changes
  rwa [hjob] at hchanges

/-- A step that changes no flash and is no reboot. -/
theorem Waiting.step (hw : Waiting m b) (hlocal : board.Local) {step : Step}
    (h : board.Passed step.cmd step.data tr b b') (hcarries : step.Carries)
    (hquiet : ∀ a, InFlash a → ¬ step.cmd.Touches a) (hreboot : step.cmd.isReboot = false) :
    Waiting m b' where
  idle := h.stage
  running := h.rebooting.trans hreboot
  flash a ha := by
    have hmem : b'.mem a = b.mem a := by
      by_contra hne
      exact hquiet a ha (h.flash hlocal hcarries ha hne)
    exact hmem.trans (hw.flash a ha)

/-- The device is ready for a command that asks for nothing. -/
theorem Waiting.ready (hw : Waiting m b) {step : Step} (hjob : step.cmd.job step.data = none)
    (hcompare : ∀ piece, step ≠ .compare piece)
    (hacc : board.Accepts b step.cmd) : board.Ready b step where
  idle := hw.idle
  accepts := hacc
  able := ⟨b.mem, by rw [hjob]; rfl⟩
  agrees piece h := absurd h (hcompare piece)

/-- Exclusive access is taken, and XIP is left. -/
theorem through_prepare (hlocal : board.Local) (m : Nor.Memory) :
    board.Through (Waiting m) [.exclusiveAccess, .exitXip]
      fun b => Waiting m b ∧ b.xip = false := by
  have hfirst : board.Through (Waiting m) [.exclusiveAccess] (Waiting m) := by
    refine .single trivial trivial (fun b hw => ?_) fun tr b b' hw h => ?_
    · exact hw.ready rfl (by simp) ⟨hw.running, trivial⟩
    · exact hw.step hlocal h trivial (fun _ _ => id) rfl
  have hsecond : board.Through (Waiting m) [.exitXip] fun b => Waiting m b ∧ b.xip = false := by
    refine .single trivial trivial (fun b hw => ?_) fun tr b b' hw h => ?_
    · exact hw.ready rfl (by simp) ⟨hw.running, trivial⟩
    · exact ⟨hw.step hlocal h trivial (fun _ _ => id) rfl, h.xip⟩
  exact hfirst.append hsecond (by simp [Step.Fits])

/-! ### The detection -/

theorem holdsStub_written (m : Nor.Memory) :
    HoldsStub (written m ⟨stubAddr.toNat, flashIdStub⟩) := by
  refine content_eq_iff.mpr fun a v hv => ?_
  rw [written, if_neg (not_inFlash_stub hv.1), stored_of_holds hv]

/-- The stub is written to RAM and executed, and leaves the id. -/
theorem through_stubSteps (hboard : board.Working) {jedec : UInt8 × UInt8 × UInt8}
    (hid : board.Identifies jedec) (m : Nor.Memory) :
    board.Through (Waiting m) stubSteps
      fun b => Waiting m b ∧ content b.mem resultAddr 3 = idBytes jedec := by
  have hlocal := hboard.local
  have hwrite : board.Through (fun b => Waiting m b ∧ b.xip = false)
      [.flashWrite ⟨stubAddr, flashIdStub⟩] fun b => Waiting m b ∧ HoldsStub b.mem := by
    have hcarries : (Step.flashWrite ⟨stubAddr, flashIdStub⟩).Carries :=
      carries_detectSteps _ (by simp [detectSteps, stubSteps])
    refine .single trivial hcarries (fun b hw => ?_) fun tr b b' hw h => ⟨?_, ?_⟩
    · refine ⟨hw.1.idle, ⟨hw.1.running, hcarries.1, fun hin => ?_⟩, hboard.canWrite .., by simp⟩
      exact absurd hin (not_inFlash_stub le_rfl)
    · exact hw.1.step hlocal h hcarries
        (fun a => touches_detectSteps (by simp [detectSteps, stubSteps])) rfl
    · rw [hboard.write h.changes]
      exact holdsStub_written b.mem
  have hexec : board.Through (fun b => Waiting m b ∧ HoldsStub b.mem) [.exec stubAddr]
      fun b => Waiting m b ∧ content b.mem resultAddr 3 = idBytes jedec := by
    refine .single trivial trivial (fun b hw => ?_) fun tr b b' hw h => ⟨?_, ?_⟩
    · exact ⟨hw.1.idle, ⟨hw.1.running, trivial⟩, hid.able b.mem hw.2, by simp⟩
    · exact hw.1.step hlocal h trivial (fun _ _ => id) rfl
    · exact hid.result b.mem b'.mem hw.2 h.changes
  exact ((through_prepare hlocal m).append hwrite (by simp [Step.Fits])).append hexec
    (by simp [Step.Fits])

/-- The result is read back. -/
theorem through_readResult (hlocal : board.Local) (m : Nor.Memory) :
    board.Through (Waiting m) [.flashRead resultAddr 3] (Waiting m) := by
  have hcarries : (Step.flashRead resultAddr 3).Carries :=
    carries_detectSteps _ (by simp [detectSteps, stubSteps])
  refine .single (by simp [Step.Fits]) hcarries (fun b hw => ?_) fun tr b b' hw h => ?_
  · refine hw.ready rfl (by simp) ⟨hw.running, hcarries, fun hin => ?_⟩
    exact absurd hin (not_inFlash_stub (by decide))
  · exact hw.step hlocal h hcarries (fun _ _ => id) rfl

/-! ### The load -/

/-- The device waits for a packet, and flash is not in XIP. -/
structure Writable (b : Bootsel) : Prop where
  idle : b.stage = .idle
  running : b.rebooting = false
  outside : b.xip = false

/-- The device waits for a packet, and its flash holds the image. -/
structure Loaded (segs : List Segment) (m : Nor.Memory) (b : Bootsel) : Prop where
  idle : b.stage = .idle
  running : b.rebooting = false
  flash : Flashed segs m b.mem

section Load

variable {bound : UInt32} {segs : List Segment} {rs : List (Run UInt8)}
  {erases : List (UInt32 × UInt32)} {verify : Bool} (hrep : Represents bound segs rs)
  (hcap : bound.toNat ≤ flashStart.toNat + board.capacity)

include hrep hcap

/-- A comparison. -/
theorem through_compare (m : Nor.Memory) {p : Segment} (hp : p ∈ pieces segs) :
    board.Through (fun b => Loaded segs m b ∧ b.xip = true) [.compare p]
      fun b => Loaded segs m b ∧ b.xip = true := by
  have hstep : LoadStep [] segs (.compare p) := .compare hp
  have hcarries : (Step.compare p).Carries := carries_of_loadStep hstep
  have hfits : (Step.compare p).Fits := (length_le_of_mem_pieces hp).2.trans_lt (by decide)
  obtain ⟨hlo, hhi⟩ := pieces_window hrep hp
  refine .single hfits hcarries (fun b hw => ?_) fun tr b b' hw h => ?_
  · refine ⟨hw.1.idle, ⟨hw.1.running, hcarries, fun _ => ⟨hw.2, ?_⟩⟩, ⟨b.mem, rfl⟩, ?_⟩
    · exact ⟨UInt32.le_iff_toNat_le.mp hlo, hhi.trans hcap⟩
    · intro piece heq
      obtain rfl := Step.compare.inj heq
      refine content_eq_iff.mpr fun a v hv => ?_
      obtain ⟨s, hs, hsv⟩ := (holds_pieces hrep.fitsAddressSpace a v).mp ⟨p, hp, hv⟩
      exact hw.1.flash.payload s hs a v hsv
  · have hmem := h.mem_eq rfl
    exact ⟨⟨h.stage, h.rebooting, hmem ▸ hw.1.flash⟩, h.xip.trans hw.2⟩

/-- The comparisons, if there are any, and the reboot. -/
theorem through_closeSteps (m : Nor.Memory) (verify : Bool) :
    board.Through (Loaded segs m) (closeSteps segs verify)
      fun b => b.rebooting = true ∧ Flashed segs m b.mem := by
  have hreboot : board.Through (Loaded segs m) [.reboot]
      fun b => b.rebooting = true ∧ Flashed segs m b.mem := by
    refine .single trivial trivial (fun b hw => ?_) fun tr b b' hw h => ?_
    · exact ⟨hw.idle, ⟨hw.running, trivial⟩, ⟨b.mem, rfl⟩, by simp⟩
    · have hmem := h.mem_eq rfl
      exact ⟨h.rebooting, hmem ▸ hw.flash⟩
  cases verify with
  | false => exact hreboot
  | true =>
      have henter : board.Through (Loaded segs m) [.enterCmdXip]
          fun b => Loaded segs m b ∧ b.xip = true := by
        refine .single trivial trivial (fun b hw => ?_) fun tr b b' hw h => ?_
        · exact ⟨hw.idle, ⟨hw.running, trivial⟩, ⟨b.mem, rfl⟩, by simp⟩
        · have hmem := h.mem_eq rfl
          exact ⟨⟨h.stage, h.rebooting, hmem ▸ hw.flash⟩, h.xip⟩
      have hfits : ∀ step ∈ (pieces segs).map Step.compare, step.Fits := by
        intro step hstep
        obtain ⟨p, hp, rfl⟩ := List.mem_map.mp hstep
        exact (length_le_of_mem_pieces hp).2.trans_lt (by decide)
      have hcompares : board.Through (fun b => Loaded segs m b ∧ b.xip = true)
          ((pieces segs).map .compare) fun b => Loaded segs m b ∧ b.xip = true := by
        refine .all hfits fun step hstep => ?_
        obtain ⟨p, hp, rfl⟩ := List.mem_map.mp hstep
        exact through_compare hrep hcap m hp
      have hverify := (henter.append hcompares (by simp [Step.Fits])).strengthen
        fun _ _ _ _ _ hw => hw.1
      exact hverify.append hreboot (by simpa [Step.Fits] using hfits)

variable (hboard : board.Working)

include hboard

theorem through_write {p : Segment} (hp : p ∈ pieces segs) :
    board.Through Writable [.flashWrite p] Writable := by
  have hstep : LoadStep [] segs (.flashWrite p) := .flashWrite hp
  have hcarries : (Step.flashWrite p).Carries := carries_of_loadStep hstep
  obtain ⟨hlo, hhi⟩ := pieces_window hrep hp
  refine .single trivial hcarries (fun b hw => ?_) fun tr b b' hw h => ?_
  · refine ⟨hw.idle, ⟨hw.running, hcarries.1, fun _ => ⟨hw.outside, ?_⟩⟩, hboard.canWrite ..,
      by simp⟩
    exact ⟨UInt32.le_iff_toNat_le.mp hlo, hhi.trans hcap⟩
  · exact ⟨h.stage, h.rebooting, h.xip.trans hw.outside⟩

variable (hb : SectorBound bound) (hplan : planErase segs = some erases)

include hb hplan

theorem through_erase {e : UInt32 × UInt32} (he : e ∈ erases) :
    board.Through Writable [.flashErase e.1 e.2] Writable := by
  obtain ⟨haddr, hsize, hlo, hhi⟩ := planErase_guarded hrep hb hplan he
  refine .single trivial trivial (fun b hw => ?_) fun tr b b' hw h => ?_
  · refine ⟨hw.idle, ⟨hw.running, hw.outside, haddr, hsize, ?_⟩, hboard.canErase .., by simp⟩
    exact ⟨UInt32.le_iff_toNat_le.mp hlo, hhi.trans hcap⟩
  · exact ⟨h.stage, h.rebooting, h.xip.trans hw.outside⟩

/-- All erases and all writes. -/
theorem through_flashSteps (m : Nor.Memory) :
    board.Through (Waiting m) (flashSteps erases segs)
      fun b => Loaded segs m b := by
  have hsteps : ∀ step ∈ erases.map (fun e => Step.flashErase e.1 e.2) ++
      (pieces segs).map .flashWrite, board.Through Writable [step] Writable := by
    intro step hstep
    rcases List.mem_append.mp hstep with hstep | hstep
    · obtain ⟨e, he, rfl⟩ := List.mem_map.mp hstep
      exact through_erase hrep hcap hboard hb hplan he
    · obtain ⟨p, hp, rfl⟩ := List.mem_map.mp hstep
      exact through_write hrep hcap hboard hp
  have hfits : ∀ step ∈ erases.map (fun e => Step.flashErase e.1 e.2) ++
      (pieces segs).map .flashWrite, step.Fits := by
    intro step hstep
    rcases List.mem_append.mp hstep with hstep | hstep
    · obtain ⟨e, -, rfl⟩ := List.mem_map.mp hstep
      trivial
    · obtain ⟨p, -, rfl⟩ := List.mem_map.mp hstep
      trivial
  have hprepare : board.Through (Waiting m) [.exclusiveAccess, .exitXip] Writable :=
    (through_prepare hboard.local m).strengthen fun _ _ _ _ _ hw =>
      ⟨hw.1.idle, hw.1.running, hw.2⟩
  have hall := hprepare.append (.all hfits hsteps) (by simp [Step.Fits])
  refine hall.strengthen fun tr b b' hw hpassed hdone => ⟨hdone.idle, hdone.running, ?_⟩
  refine flashed_of_applyAll hrep hb hplan fun a ha => ?_
  have hmem := hpassed.mem hboard.toHealthy ha
  rw [flashSteps]
  exact hmem.trans (Nor.applyAll_congr (hw.flash a ha) _)

/-- A load goes through and leaves the image, and the device reboots. -/
theorem through_loadPlan (m : Nor.Memory) :
    board.Through (Waiting m) (loadPlan erases segs verify)
      fun b => b.rebooting = true ∧ Flashed segs m b.mem := by
  have hfits := loadPlan_fits erases segs verify
  rw [loadPlan_eq] at hfits ⊢
  exact (through_flashSteps hrep hcap hboard hb hplan m).append
    (through_closeSteps hrep hcap m verify) fun s hs =>
      hfits s (List.mem_append_left _ hs)

end Load

end Steps

end PicotoolRs
