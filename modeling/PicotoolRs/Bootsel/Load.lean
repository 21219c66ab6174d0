import PicotoolRs.Bootsel.Flash
import PicotoolRs.Run.Guard

/-!
# PicotoolRs.Bootsel.Load

What the detection and the load do to the flash of a device.

The sectors that the segments reach into (`InSectors`) are all that a load has to
do with. A load that goes through leaves the image in them (`Flashed`), and so do
its erases and writes alone, whatever is answered to the rest of it. Of a load
that was cut off, every byte is an old, an erased or a new one.
-/

namespace PicotoolRs

open Lib Constants

/-- The address is in a sector that the segments reach into: one in which a segment
has a byte, or, if it has none at all, one that its address is strictly inside of. -/
def InSectors (segs : List Segment) (a : Nat) : Prop :=
  ∃ s ∈ segs, sectorStart s.toRun ≤ a ∧ a < sectorStop s.toRun

/-- Flash with the segments in the sectors that they reach into. -/
structure Flashed (segs : List Segment) (m m' : Nor.Memory) : Prop where
  /-- Every byte of a segment is in place. -/
  payload : ∀ s ∈ segs, ∀ a v, s.toRun.Holds a v → m' a = v
  /-- The rest of these sectors is erased. -/
  erased : ∀ a, InSectors segs a → (∀ s ∈ segs, ¬ s.toRun.Covers a) → m' a = Nor.erased
  /-- All other flash is as it was. -/
  unchanged : ∀ a, InFlash a → ¬ InSectors segs a → m' a = m a

/-- The byte is an old one, or, in a sector that the segments reach into, an erased
one or that of a segment. -/
def Partly (segs : List Segment) (m m' : Nor.Memory) (a : Nat) : Prop :=
  m' a = m a ∨ InSectors segs a ∧ (m' a = Nor.erased ∨ ∃ s ∈ segs, s.toRun.Holds a (m' a))

theorem inSectors_of_covers {segs : List Segment} {s : Segment} {a : Nat} (hs : s ∈ segs)
    (h : s.toRun.Covers a) : InSectors segs a := by
  refine ⟨s, hs, ?_⟩
  obtain ⟨hlo, hhi⟩ := h
  simp only [sectorStart, sectorStop]
  omega

/-! ### The detection -/

/-- The stub and its result are in RAM. -/
theorem not_inFlash_stub {a : Nat} (hlo : stubAddr.toNat ≤ a) : ¬ InFlash a := by
  intro h
  have habove : flashEnd.toNat ≤ stubAddr.toNat := by decide
  obtain ⟨-, hhi⟩ := h
  omega

/-- The detection neither erases nor writes flash. -/
theorem touches_detectSteps {step : Step} (hstep : step ∈ detectSteps) {a : Nat}
    (hflash : InFlash a) : ¬ step.cmd.Touches a := by
  simp only [detectSteps, stubSteps, List.mem_append, List.mem_cons, List.not_mem_nil,
    or_false] at hstep
  rcases hstep with (rfl | rfl | rfl | rfl) | rfl
  · exact id
  · exact id
  · exact fun h => not_inFlash_stub h.1 hflash
  · exact id
  · exact id

/-- The data that the detection announces is not taken for a packet, nor a packet
for that data. -/
theorem harmless_detectSteps {step : Step} (hstep : step ∈ detectSteps) {addr size : UInt32}
    (h : step.cmd = .write addr size) : (Stage.takesData addr size).Harmless := by
  have hstub : addr = stubAddr ∧ size = U32.ofUsize flashIdStub.length := by
    simp only [detectSteps, stubSteps, List.mem_append, List.mem_cons, List.not_mem_nil,
      or_false] at hstep
    rcases hstep with (rfl | rfl | rfl | rfl) | rfl <;> simp [Step.cmd] at h
    exact ⟨h.1.symm, h.2.symm⟩
  obtain ⟨rfl, rfl⟩ := hstub
  intro addr' size' heq
  obtain ⟨rfl, rfl⟩ := Stage.takesData.inj heq
  exact ⟨by decide, fun a hlo _ => not_inFlash_stub hlo⟩

section Detection

variable {board : Board} {tr : BusTrace} {b b' : Bootsel}

/-- A detection, cut off or failed or not, leaves flash as it was, and the device
in no stage in which a packet does any harm. -/
theorem Board.CutAll.detection (h : board.CutAll detectSteps tr b b') (hb : b.stage.Harmless) :
    (board.Local → ∀ a, InFlash a → b'.mem a = b.mem a) ∧ b'.stage.Harmless := by
  refine ⟨fun hlocal a hflash => ?_,
    h.harmless hb fun step hstep addr size => harmless_detectSteps hstep⟩
  by_contra ha
  obtain ⟨step, hstep, htouch⟩ := h.flash hlocal carries_detectSteps hflash ha
  exact touches_detectSteps hstep hflash htouch

end Detection

/-! ### The operations of a load -/

section Segments

variable {bound : UInt32} {segs : List Segment} {rs : List (Run UInt8)}
  {erases : List (UInt32 × UInt32)} {verify : Bool}
  (hrep : Represents bound segs rs) (hb : SectorBound bound)

include hrep hb

theorem inFlash_of_inSectors {a : Nat} (h : InSectors segs a) : InFlash a := by
  obtain ⟨s, hs, hlo, hhi⟩ := h
  obtain ⟨hstart, hstop⟩ := hrep.segment_window hs
  have hbelow := UInt32.le_iff_toNat_le.mp hb.below
  obtain ⟨k, hk⟩ := hb.aligned
  rw [toNat_flashStart] at hstart
  simp only [sectorStart, sectorStop, s.toRun_start] at hlo hhi
  refine ⟨?_, ?_⟩
  · rw [toNat_flashStart]
    omega
  · omega

variable (hplan : planErase segs = some erases)

include hplan

theorem inRanges_iff_inSectors (a : Nat) :
    Nor.InRanges (erases.map fun e => (e.1.toNat, e.2.toNat)) a ↔ InSectors segs a := by
  have hin : Nor.InRanges (erases.map fun e => (e.1.toNat, e.2.toNat)) a ↔
      ∃ e ∈ erases, e.1.toNat ≤ a ∧ a < e.1.toNat + e.2.toNat := by
    simp [Nor.InRanges]
  exact hin.trans (inRanges_planErase_iff (hrep.fitsSectors hb.below) hplan a)

/-- The commands of a load erase and write nothing but the sectors that the segments
reach into. -/
theorem touches_loadPlan {step : Step} (hstep : step ∈ loadPlan erases segs verify) {a : Nat}
    (h : step.cmd.Touches a) : InSectors segs a := by
  cases loadStep_of_mem hstep with
  | flashErase he =>
      exact (inRanges_planErase_iff (hrep.fitsSectors hb.below) hplan a).mp ⟨_, he, h⟩
  | @flashWrite p hp =>
      obtain ⟨hlo, hhi⟩ := h
      rw [U32.toNat_ofUsize ((length_le_of_mem_pieces hp).2.trans_lt (by decide))] at hhi
      have hcov : p.toRun.Covers a := ⟨hlo, hhi⟩
      obtain ⟨v, hv⟩ := hcov.holds
      obtain ⟨s, hs, hsv⟩ := (holds_pieces hrep.fitsAddressSpace a v).mp ⟨p, hp, hv⟩
      exact inSectors_of_covers hs hsv.covers
  | _ => exact h.elim

omit hrep hb hplan in
/-- A plan does to flash: all erases, then all pieces. -/
theorem norOps_loadPlan :
    (loadPlan erases segs verify).filterMap Step.norOp =
      Nor.erases (erases.map fun e => (e.1.toNat, e.2.toNat)) ++
        Nor.programs ((pieces segs).map Segment.toRun) := by
  have hclose : (closeSteps segs verify).filterMap Step.norOp = [] :=
    List.filterMap_eq_nil_iff.mpr norOp_closeSteps
  rw [loadPlan_eq, List.filterMap_append, norOps_flashSteps, hclose, List.append_nil]

omit hb hplan in
theorem holds_runs_iff (a : Nat) (v : UInt8) :
    (∃ r ∈ (pieces segs).map Segment.toRun, r.Holds a v) ↔ ∃ s ∈ segs, s.toRun.Holds a v := by
  rw [← holds_pieces hrep.fitsAddressSpace]
  simp

omit hb hplan in
theorem covers_of_mem_runs {r : Run UInt8} (hr : r ∈ (pieces segs).map Segment.toRun) {a : Nat}
    (h : r.Covers a) : ∃ s ∈ segs, s.toRun.Covers a := by
  obtain ⟨v, hv⟩ := h.holds
  obtain ⟨s, hs, hsv⟩ := (holds_runs_iff hrep a v).mp ⟨r, hr, hv⟩
  exact ⟨s, hs, hsv.covers⟩

theorem inRanges_of_mem_runs {r : Run UInt8} (hr : r ∈ (pieces segs).map Segment.toRun) {a : Nat}
    (h : r.Covers a) : Nor.InRanges (erases.map fun e => (e.1.toNat, e.2.toNat)) a := by
  obtain ⟨s, hs, hsa⟩ := covers_of_mem_runs hrep hr h
  exact (inRanges_iff_inSectors hrep hb hplan a).mpr (inSectors_of_covers hs hsa)

/-- The operations of a plan leave the image. -/
theorem flashed_of_applyAll {m m' : Nor.Memory}
    (h : ∀ a, InFlash a →
      m' a = Nor.applyAll m ((flashSteps erases segs).filterMap Step.norOp) a) :
    Flashed segs m m' := by
  rw [norOps_flashSteps] at h
  have himage := Nor.image_erase_program (m := m)
    (pieces_ascending hrep.fitsAddressSpace hrep.gap)
    fun r hr a => inRanges_of_mem_runs hrep hb hplan hr
  constructor
  case payload =>
    intro s hs a v hv
    obtain ⟨r, hr, hrv⟩ := (holds_runs_iff hrep a v).mpr ⟨s, hs, hv⟩
    rw [h a (inFlash_of_inSectors hrep hb (inSectors_of_covers hs hv.covers))]
    exact (himage a).1 r hr v hrv
  case erased =>
    intro a ha hno
    rw [h a (inFlash_of_inSectors hrep hb ha)]
    refine (himage a).2.1 ((inRanges_iff_inSectors hrep hb hplan a).mpr ha) fun r hr hra => ?_
    obtain ⟨s, hs, hsa⟩ := covers_of_mem_runs hrep hr hra
    exact hno s hs hsa
  case unchanged =>
    intro a hflash ha
    rw [h a hflash]
    exact (himage a).2.2 fun hin => ha ((inRanges_iff_inSectors hrep hb hplan a).mp hin)

/-- The first operations of a plan leave every byte old, erased or new. -/
theorem partly_of_applyAll {done : List Step} (hdone : done <+: loadPlan erases segs verify)
    {m m' : Nor.Memory} {a : Nat}
    (h : m' a = Nor.applyAll m (done.filterMap Step.norOp) a) : Partly segs m m' a := by
  have hops := hdone.filterMap Step.norOp
  rw [norOps_loadPlan] at hops
  obtain ⟨hnew, hrest, hout⟩ := Nor.image_cut (m := m)
    (pieces_ascending hrep.fitsAddressSpace hrep.gap)
    (fun r hr a => inRanges_of_mem_runs hrep hb hplan hr) hops a
  rw [← h] at hnew hrest hout
  by_cases hin : InSectors segs a
  · by_cases hcov : ∃ r ∈ (pieces segs).map Segment.toRun, r.Covers a
    · obtain ⟨r, hr, hra⟩ := hcov
      obtain ⟨v, hv⟩ := hra.holds
      rcases hnew r hr v hv with hold | herased | hbyte
      · exact .inl hold
      · exact .inr ⟨hin, .inl herased⟩
      · refine .inr ⟨hin, .inr ((holds_runs_iff hrep a _).mp ⟨r, hr, ?_⟩)⟩
        rwa [hbyte]
    · rcases hrest fun r hr hra => hcov ⟨r, hr, hra⟩ with hold | herased
      · exact .inl hold
      · exact .inr ⟨hin, .inl herased⟩
  · exact .inl (hout fun hr => hin ((inRanges_iff_inSectors hrep hb hplan a).mp hr))

/-! ### A load on a device -/

variable {board : Board} {tr : BusTrace} {b b' : Bootsel}

/-- A load, cut off or failed or not, changes flash only in the sectors that the
segments reach into. -/
theorem load_contained (hlocal : board.Local)
    (h : board.CutAll (loadPlan erases segs verify) tr b b') {a : Nat} (hflash : InFlash a)
    (ha : b'.mem a ≠ b.mem a) : InSectors segs a := by
  obtain ⟨step, hstep, htouch⟩ :=
    h.flash hlocal (fun step hstep => carries_of_loadStep (loadStep_of_mem hstep)) hflash ha
  exact touches_loadPlan hrep hb hplan hstep htouch

/-- On a healthy board, what a load that was cut off leaves of a byte is known,
unless its last command was one for this byte. -/
theorem load_partly (hboard : board.Healthy)
    (h : board.CutAll (loadPlan erases segs verify) tr b b') {a : Nat} (hflash : InFlash a) :
    (∃ cmd, (commands tr).getLast? = some cmd ∧ cmd.Touches a) ∨ Partly segs b.mem b'.mem a := by
  cases h with
  | @between done rest _ _ _ hsplit hdone =>
      have hpre : done <+: loadPlan erases segs verify := ⟨rest, hsplit.symm⟩
      exact .inr (partly_of_applyAll hrep hb hplan hpre (hdone.mem hboard hflash))
  | @within done rest step t₁ t₂ _ b₁ _ hsplit hdone hcmd hin _ =>
      by_cases hb₁ : b'.mem a = b₁.mem a
      · have hpre : done <+: loadPlan erases segs verify := ⟨step :: rest, hsplit.symm⟩
        refine .inr (partly_of_applyAll hrep hb hplan hpre ?_)
        rw [hb₁]
        exact hdone.mem hboard hflash
      · refine .inl ⟨step.cmd, ?_, hin.flash hboard.local a hflash hb₁⟩
        rw [commands_append, hcmd, List.getLast?_concat]

/-- On a healthy board, a load that returns leaves the image, whatever became of
its reboot. -/
theorem load_flashed {d d' : Device} (hboard : board.Healthy)
    (h : LoopRuns Step.perform (loadPlan erases segs verify) d tr (.ok ()) d')
    (hserves : Peer.Serves board.Reacts b tr b') (hstage : b.stage.Harmless) :
    Flashed segs b.mem b'.mem := by
  have hfits := loadPlan_fits erases segs verify
  have hlast := loadPlan_dropLast erases segs verify
  obtain ⟨d₁, t₁, t₂, rfl, hflash, hclose⟩ := past_flashSteps h (.inl rfl)
  rw [loadPlan_eq] at hfits hlast
  rw [List.dropLast_append_of_ne_nil (by simp [closeSteps]), List.mem_append, not_or] at hlast
  obtain ⟨b₁, hserves₁, hserves₂⟩ := Peer.serves_append.mp hserves
  have hpassed := steps_passed hflash (fun s hs => hfits s (List.mem_append_left _ hs)) hlast.1
    hserves₁ hstage
  have hcut := steps_ended hclose (fun s hs => hfits s (List.mem_append_right _ hs))
    hlast.2 hserves₂ (hpassed.harmless hstage)
  have hquiet : ∀ a, ∀ step ∈ closeSteps segs verify, ¬ step.cmd.Touches a := fun a =>
    forall_mem_closeSteps id (fun _ => id) id
  have hcarries : ∀ step ∈ closeSteps segs verify, step.Carries := fun step hstep => by
    have hmem : step ∈ loadPlan erases segs verify := by
      rw [loadPlan_eq]
      exact List.mem_append_right _ hstep
    exact carries_of_loadStep (loadStep_of_mem hmem)
  refine flashed_of_applyAll hrep hb hplan fun a hin => ?_
  have hkept : b'.mem a = b₁.mem a := by
    by_contra ha
    obtain ⟨step, hstep, htouch⟩ := hcut.flash hboard.local hcarries hin ha
    exact hquiet a step hstep htouch
  rw [hkept, hpassed.mem hboard hin]

end Segments

end PicotoolRs
