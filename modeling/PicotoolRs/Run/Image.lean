import PicotoolRs.Lib.Nor
import PicotoolRs.Load.Plan
import PicotoolRs.Run.Erase

/-!
# PicotoolRs.Run.Image

What a load leaves in flash.

The flash is NOR memory: an erase sets a range to `0xFF` and a write can only
clear bits. `flashAfter` carries out the exchanges of a trace on it. A load that
goes through erases first and writes afterwards, every piece
inside the erased sectors and no byte twice, so that the general law of NOR
memory (`Nor.image_erase_program`) gives the image.
-/

namespace PicotoolRs

open Lib Constants

/-! ### The device's flash -/

/-- What the device does to its flash in an exchange, if anything. -/
def Exchange.norOp (x : Exchange) : Option Nor.Op :=
  match x.cmd with
  | .flashErase addr size => some (.erase addr.toNat size.toNat)
  | .write addr _ => some (.program ⟨addr.toNat, x.sent⟩)
  | _ => none

/-- The memory after the exchanges of a trace. -/
def flashAfter (m : Nor.Memory) (tr : BusTrace) : Nor.Memory :=
  Nor.applyAll m ((Link.start.after tr).finished.filterMap Exchange.norOp)

/-- What the device does to its flash in a step. -/
def Step.norOp (step : Step) : Option Nor.Op := Exchange.norOp ⟨step.cmd, step.data, []⟩

theorem Step.Sent.norOp {step : Step} {x : Exchange} (h : step.Sent x) : x.norOp = step.norOp := by
  rw [Step.norOp, Exchange.norOp, Exchange.norOp, h.cmd, h.sent]

theorem norOps_of_sent {steps : List Step} {xs : List Exchange}
    (h : List.Forall₂ Step.Sent steps xs) :
    xs.filterMap Exchange.norOp = steps.filterMap Step.norOp := by
  induction h with
  | nil => rfl
  | cons hx _ ih => rw [List.filterMap_cons, List.filterMap_cons, hx.norOp, ih]

/-- The steps up to the last write erase the plan and program the pieces. -/
theorem norOps_flashSteps (erases : List (UInt32 × UInt32)) (segs : List Segment) :
    (flashSteps erases segs).filterMap Step.norOp =
      Nor.erases (erases.map fun e => (e.1.toNat, e.2.toNat)) ++
        Nor.programs ((pieces segs).map Segment.toRun) := by
  have herases : (erases.map fun e => Step.flashErase e.1 e.2).filterMap Step.norOp =
      Nor.erases (erases.map fun e => (e.1.toNat, e.2.toNat)) := by
    rw [Nor.erases, List.map_map, List.filterMap_map]
    exact congrFun List.filterMap_eq_map _
  have hwrites : ((pieces segs).map Step.flashWrite).filterMap Step.norOp =
      Nor.programs ((pieces segs).map Segment.toRun) := by
    rw [Nor.programs, List.map_map, List.filterMap_map]
    exact congrFun List.filterMap_eq_map _
  rw [flashSteps, List.filterMap_cons_none rfl, List.filterMap_cons_none rfl,
    List.filterMap_append, herases, hwrites]

/-- The steps after the last write leave the flash alone. -/
theorem norOp_closeSteps {segs : List Segment} {verify : Bool} :
    ∀ step ∈ closeSteps segs verify, step.norOp = none :=
  forall_mem_closeSteps rfl (fun _ => rfl) rfl

/-- The flash after a load that returned, or whose transfers all succeeded:
first all erases, then all pieces. -/
theorem flashAfter_load {segs : List Segment} {erases : List (UInt32 × UInt32)} {verify : Bool}
    {d d' : Device} {tr : BusTrace} {o : Outcome LoadError Unit} (hfits : FitsAddressSpace segs)
    (hplan : planErase segs = some erases) (h : (load segs verify).Runs d tr o d')
    (hs : o = .ok () ∨ ∀ ev ∈ tr, Succeeded ev) (m : Nor.Memory) :
    flashAfter m tr = Nor.applyAll m
      (Nor.erases (erases.map fun e => (e.1.toNat, e.2.toNat)) ++
        Nor.programs ((pieces segs).map Segment.toRun)) := by
  rw [load_eq verify hfits hplan, Session.runs_forM] at h
  have hsteps := loadPlan_fits erases segs verify
  have hlast := loadPlan_dropLast erases segs verify
  rw [loadPlan_eq] at hsteps hlast
  rw [List.dropLast_append_of_ne_nil (by simp [closeSteps]), List.mem_append, not_or] at hlast
  obtain ⟨d₁, t₁, t₂, rfl, h₁, h₂⟩ := past_flashSteps h hs
  obtain ⟨xs, hxs, hl₁⟩ := steps_link h₁
    (fun step hstep => hsteps step (List.mem_append_left _ hstep)) hlast.1 []
  obtain ⟨ys, hledger, hl₂⟩ := steps_ledger h₂
    (fun step hstep => hsteps step (List.mem_append_right _ hstep)) hlast.2 ([] ++ xs)
  obtain ⟨done, hdone, hys⟩ := hledger.sent
  have hclose : ys.filterMap Exchange.norOp = [] := by
    rw [norOps_of_sent hys, List.filterMap_eq_nil_iff]
    exact fun step hstep => norOp_closeSteps step (hdone.subset hstep)
  rw [flashAfter, Link.start, Link.after_append, hl₁, hl₂, List.filterMap_append, hclose,
    List.append_nil, List.nil_append, norOps_of_sent (hxs.imp fun _ _ hx => hx.toSent),
    norOps_flashSteps]

/-! ### The image -/

/-- The memory `m'` is the image of the payloads on top of `m`. -/
structure FlashImage (rs : List (Run UInt8)) (m m' : Nor.Memory) : Prop where
  /-- Every payload is in place. -/
  payload : ∀ r ∈ rs, ∀ a v, r.Holds a v → m' a = v
  /-- The rest of a sector with payload is erased. -/
  erased : ∀ a, HasPayload rs (a / 4096) → (∀ r ∈ rs, ¬ r.Covers a) → m' a = 0xFF
  /-- Every other sector is as it was. -/
  unchanged : ∀ a, ¬ HasPayload rs (a / 4096) → m' a = m a

/-- Where every segment carries bytes, the plan covers the addresses of the
sectors with payload. -/
theorem inRanges_iff_hasPayload {bound : UInt32} {segs : List Segment} {rs : List (Run UInt8)}
    {erases : List (UInt32 × UInt32)} (h : Represents bound segs rs) (hfits : FitsSectors segs)
    (hplan : planErase segs = some erases) (hne : ∀ s ∈ segs, s.data ≠ []) (a : Nat) :
    Nor.InRanges (erases.map fun e => (e.1.toNat, e.2.toNat)) a ↔ HasPayload rs (a / 4096) := by
  have hin : Nor.InRanges (erases.map fun e => (e.1.toNat, e.2.toNat)) a ↔
      ∃ e ∈ erases, e.1.toNat ≤ a ∧ a < e.1.toNat + e.2.toNat := by
    simp [Nor.InRanges]
  rw [hin, inRanges_planErase_iff hfits hplan, h.hasPayload_iff]
  exact exists_congr fun s => and_congr_right fun hs => inSpan_iff_of_ne_nil (hne s hs) a

/-- A load that returns, or whose transfers all succeed, leaves the image of the
accepted payloads in flash, if each of them has at least one byte. -/
theorem load_image {bytes : List UInt8} {bound : UInt32} {segs : List Segment} {verify : Bool}
    {d d' : Device} {tr : BusTrace} {o : Outcome LoadError Unit} (m : Nor.Memory)
    (hres : Resolvable bound) (hparse : parse bytes bound = .ok segs)
    (hne : ∀ r ∈ accepted (fileBlocks bytes), r.data ≠ [])
    (h : (load segs verify).Runs d tr o d') (hs : o = .ok () ∨ ∀ ev ∈ tr, Succeeded ev) :
    FlashImage (accepted (fileBlocks bytes)) m (flashAfter m tr) := by
  have hrep := parse_represents hparse
  have hsectors := hrep.fitsSectors hres.bounds.below
  have hplan := planErase_eq hsectors
  have hseg : ∀ s ∈ segs, s.data ≠ [] := fun s hs hnil => by
    obtain ⟨r, hr, hempty, -⟩ := hrep.empty_payload hs hnil
    exact hne r hr hempty
  have hranges := inRanges_iff_hasPayload hrep hsectors hplan hseg
  have hpieces : ∀ a v, (∃ p ∈ (pieces segs).map Segment.toRun, p.Holds a v) ↔
      ∃ r ∈ accepted (fileBlocks bytes), r.Holds a v := fun a v => by
    rw [← hrep.holds, ← holds_pieces hrep.fitsAddressSpace]
    simp
  have hcovers : ∀ a, (∃ p ∈ (pieces segs).map Segment.toRun, p.Covers a) →
      ∃ r ∈ accepted (fileBlocks bytes), r.Covers a := by
    intro a h
    obtain ⟨_, hmem, hpa⟩ := h
    obtain ⟨p, hp, rfl⟩ := List.mem_map.mp hmem
    exact (hrep.covers_pieces a).mp ⟨p, hp, hpa⟩
  have himage := Nor.image_erase_program (m := m)
    (pieces_ascending hrep.fitsAddressSpace hrep.gap) fun p hp a hpa => by
      obtain ⟨r, hr, hra⟩ := hcovers a ⟨p, hp, hpa⟩
      exact (hranges a).mpr ⟨r, hr, a, hra, rfl⟩
  rw [flashAfter_load hrep.fitsAddressSpace hplan h hs m]
  constructor
  case payload =>
    intro r hr a v hv
    obtain ⟨p, hp, hpv⟩ := (hpieces a v).mpr ⟨r, hr, hv⟩
    exact (himage a).1 p hp v hpv
  case erased =>
    intro a ha hno
    refine (himage a).2.1 ((hranges a).mpr ha) fun p hp hpa => ?_
    obtain ⟨r, hr, hra⟩ := hcovers a ⟨p, hp, hpa⟩
    exact hno r hr hra
  case unchanged => exact fun a ha => (himage a).2.2 fun hin => ha ((hranges a).mp hin)

/-- A file of two accepted blocks in two sectors. -/
def twoSectorFile : List UInt8 :=
  fileBytes [.build uf2FlagFamilyIdPresent (flashStart + 16) rp2040FamilyId [1, 2] (by decide),
    .build uf2FlagFamilyIdPresent (flashStart + 6144) rp2040FamilyId [3] (by decide)]

/-- The segments of `twoSectorFile`. -/
def twoSectors : List Segment := [⟨flashStart + 16, [1, 2]⟩, ⟨flashStart + 6144, [3]⟩]

theorem parse_twoSectorFile : parse twoSectorFile flashEnd = .ok twoSectors := by
  decide +kernel

theorem load_image_twoSectors :
    FlashImage (accepted (fileBlocks twoSectorFile)) (fun _ => 0)
      (flashAfter (fun _ => 0) ((load twoSectors false ⟨0, 64, 0⟩).exec Request.completed).1) :=
  load_image (fun _ => 0) resolvable_flashEnd parse_twoSectorFile
    (by rw [twoSectorFile, fileBlocks_fileBytes]; decide +kernel)
    (Session.exec_runs Request.completed _ _) (.inr (by decide +kernel))

end PicotoolRs
