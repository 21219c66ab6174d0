import PicotoolRs.Lib.Pages
import PicotoolRs.Load.Cover
import PicotoolRs.Load.Plan
import PicotoolRs.Load.Wrap
import PicotoolRs.Run.Detect

/-!
# PicotoolRs.Run.Pages

The pages that a load programs.

Nothing in the code looks at flash pages. If the accepted blocks are whole pages
the segments are (`Represents.paged`), whatever the gaps; 4096 bytes are whole
pages, so the pieces are as well (`paged_of_mem_pieces`), and being disjoint they
share no page. A load that has an erase plan sends the pieces in order
(`writes_of_plan`), so this is what is on the wire (`programs_of_plan`). One whose plan
overflows panics before the first of them (`not_programs_of_no_plan`), so
`load_pages_iff` is where the plan does.
-/

namespace PicotoolRs

open Lib Constants

/-! ### The writes of a trace -/

/-- The range of a write. -/
def Command.written : Command → Option (UInt32 × UInt32)
  | .write addr size => some (addr, size)
  | _ => none

/-- The ranges of the writes sent in a trace, in order. -/
def writes (tr : BusTrace) : List (UInt32 × UInt32) := (commands tr).filterMap Command.written

/-- The ranges of the pieces. -/
def pieceRanges (segs : List Segment) : List (UInt32 × UInt32) :=
  (pieces segs).map fun p => (p.addr, U32.ofUsize p.data.length)

/-- The steps up to the last write send the pieces. -/
theorem written_flashSteps (erases : List (UInt32 × UInt32)) (segs : List Segment) :
    ((flashSteps erases segs).map Step.cmd).filterMap Command.written = pieceRanges segs := by
  have herases : ((erases.map fun e => Step.flashErase e.1 e.2).map Step.cmd).filterMap
      Command.written = [] := by
    rw [List.map_map, List.filterMap_map]
    exact List.filterMap_eq_nil_iff.mpr fun e _ => rfl
  have hwrites : (((pieces segs).map Step.flashWrite).map Step.cmd).filterMap Command.written =
      pieceRanges segs := by
    rw [pieceRanges, List.map_map, List.filterMap_map]
    exact congrFun List.filterMap_eq_map _
  rw [flashSteps, List.map_cons, List.filterMap_cons_none rfl, List.map_cons,
    List.filterMap_cons_none rfl, List.map_append, List.filterMap_append, herases, hwrites,
    List.nil_append]

/-- The steps after them send no write. -/
theorem written_closeSteps (segs : List Segment) (verify : Bool) :
    ((closeSteps segs verify).map Step.cmd).filterMap Command.written = [] := by
  rw [List.filterMap_map, List.filterMap_eq_nil_iff]
  exact forall_mem_closeSteps rfl (fun _ => rfl) rfl

section Writes

variable {segs : List Segment} {verify : Bool} {d d' : Device} {tr : BusTrace}
  {o : Outcome LoadError Unit}

/-- Without a plan nothing is written. -/
theorem writes_of_no_plan (hplan : planErase segs = none) (h : (load segs verify).Runs d tr o d') :
    writes tr = [] := by
  obtain ⟨o', hloop, -⟩ := load_runs_of_no_plan hplan h
  have hsteps : ∀ step ∈ [Step.exclusiveAccess, .exitXip], step.Fits := by simp [Step.Fits]
  exact List.prefix_nil.mp ((steps_commands hloop hsteps).1.filterMap Command.written)

/-- Without a plan a load meets no failure over a device that completes every transfer.
-/
theorem succeeded_of_no_plan (hplan : planErase segs = none) (verify : Bool) (d : Device) :
    ∀ ev ∈ ((load segs verify d).exec Request.completed).1, Succeeded ev := by
  intro ev hev
  obtain ⟨o', hloop, -⟩ :=
    load_runs_of_no_plan hplan (Session.exec_runs Request.completed (load segs verify) d)
  obtain ⟨step, hstep, d₁, hscript⟩ := step_of_request hloop (by simp [Step.Fits]) hev
  have hphase : ∀ n, step.cmd.dataPhase ≠ .deviceToHost n := by
    simp only [List.mem_cons, List.not_mem_nil, or_false] at hstep
    rcases hstep with rfl | rfl <;> simp [Step.cmd, Command.dataPhase]
  have hs := Command.succeeded_completed hscript hphase
  rwa [← Prog.exec_answered _ _ ev hev] at hs

/-- With a plan the pieces are written, as far as the load gets. -/
theorem writes_of_plan {erases : List (UInt32 × UInt32)} (hfits : FitsAddressSpace segs)
    (hplan : planErase segs = some erases) (h : (load segs verify).Runs d tr o d') :
    writes tr <+: pieceRanges segs ∧
      ((o = .ok () ∨ ∀ ev ∈ tr, Succeeded ev) → writes tr = pieceRanges segs) := by
  rw [load_eq verify hfits hplan, Session.runs_forM] at h
  have hfitsAll := loadPlan_fits erases segs verify
  have hwritten : ((loadPlan erases segs verify).map Step.cmd).filterMap Command.written =
      pieceRanges segs := by
    rw [loadPlan_eq, List.map_append, List.filterMap_append, written_flashSteps,
      written_closeSteps, List.append_nil]
  have hpre : writes tr <+: pieceRanges segs := by
    rw [← hwritten]
    exact (steps_commands h hfitsAll).1.filterMap Command.written
  refine ⟨hpre, fun hs => ?_⟩
  -- past the last write, all of them have been sent
  obtain ⟨d₁, t₁, t₂, rfl, h₁, -⟩ := past_flashSteps h hs
  have hfront : commands t₁ = (flashSteps erases segs).map Step.cmd := by
    refine (steps_commands h₁ fun step hstep => hfitsAll step ?_).2 rfl
    rw [loadPlan_eq]
    exact List.mem_append_left _ hstep
  have hall : pieceRanges segs <+: writes (t₁ ++ t₂) := by
    rw [writes, commands_append, hfront, List.filterMap_append, written_flashSteps]
    exact List.prefix_append _ _
  exact hpre.eq_of_length_le hall.length_le

end Writes

/-! ### Whole pages -/

/-- Every payload is one or more whole pages: the RP2040 contract of a UF2 file.
-/
def WholePages (rs : List (Run UInt8)) : Prop :=
  ∀ r ∈ rs, r.Paged flashPageSize.toNat ∧ r.data ≠ []

instance (rs : List (Run UInt8)) : Decidable (WholePages rs) :=
  inferInstanceAs (Decidable (∀ r ∈ rs, _ ∧ _))

theorem flashPageSize_pos : 0 < flashPageSize.toNat := by decide

theorem toNat_ofUsize_piece {segs : List Segment} {p : Segment} (hp : p ∈ pieces segs) :
    (U32.ofUsize p.data.length).toNat = p.data.length :=
  U32.toNat_ofUsize ((length_le_of_mem_pieces hp).2.trans_lt (by decide))

/-- The range of a piece is what it covers. -/
theorem rangeHas_piece {segs : List Segment} {p : Segment} (hp : p ∈ pieces segs) (a : Nat) :
    RangeHas a (p.addr, U32.ofUsize p.data.length) ↔ p.toRun.Covers a := by
  rw [RangeHas, toNat_ofUsize_piece hp]
  exact Iff.rfl

section Pieces

variable {segs : List Segment} (hfits : FitsAddressSpace segs)

include hfits

/-- The pieces of whole pages are whole pages. -/
theorem paged_of_mem_pieces (hsegs : ∀ s ∈ segs, s.toRun.Paged flashPageSize.toNat) {p : Segment}
    (hp : p ∈ pieces segs) : p.toRun.Paged flashPageSize.toNat := by
  obtain ⟨s, hs, hps⟩ := List.mem_flatMap.mp hp
  have hmem : p.toRun ∈ layOut s.addr.toNat (chunks writeChunk s.data) := by
    rw [← Segment.map_toRun_pieces (hfits s hs)]
    exact List.mem_map_of_mem hps
  refine paged_layOut (hsegs s hs).start (fun c hc => ?_) hmem
  exact dvd_length_of_mem_chunks writeChunk_pos (by decide) (hsegs s hs).length hc

/-- No two pieces of whole pages share a page. -/
theorem pieceRanges_apart (hsegs : ∀ s ∈ segs, s.toRun.Paged flashPageSize.toNat)
    (hgap : segs.Pairwise fun s t => s.toRun.stop < t.addr.toNat) :
    (pieceRanges segs).Pairwise fun w w' => ∀ a b, RangeHas a w → RangeHas b w' →
      a / flashPageSize.toNat ≠ b / flashPageSize.toNat := by
  have hasc := pieces_ascending hfits hgap
  rw [List.pairwise_map] at hasc
  rw [pieceRanges, List.pairwise_map]
  refine hasc.imp_of_mem fun {p q} hp hq hle a b ha hb heq => ?_
  refine (paged_of_mem_pieces hfits hsegs hp).not_touches flashPageSize_pos hle
    ⟨a, (rangeHas_piece hp a).mp ha, rfl⟩ ?_
  exact ⟨b, (rangeHas_piece hq b).mp hb, heq.symm⟩

end Pieces

/-- The segments of whole pages are whole pages. -/
theorem Represents.paged {bound : UInt32} {segs : List Segment} {rs : List (Run UInt8)}
    (h : Represents bound segs rs) (hrs : WholePages rs) :
    ∀ s ∈ segs, s.toRun.Paged flashPageSize.toNat := by
  intro s hs
  exact (coalesce_coalesced h.coalesced).paged (fun r hr => (hrs r hr).1) (List.mem_map_of_mem hs)

/-! ### The load -/

/-- The writes of a load that ends with `o` program the pages of the payloads. -/
structure ProgramsPages (rs : List (Run UInt8)) (tr : BusTrace) (o : Outcome LoadError Unit) :
    Prop where
  /-- Every write is one or more whole pages, and at most a chunk. -/
  whole : ∀ w ∈ writes tr, flashPageSize.toNat ∣ w.1.toNat ∧ 0 < w.2.toNat ∧
    flashPageSize.toNat ∣ w.2.toNat ∧ w.2.toNat ≤ 4096
  /-- No two touch the same page. -/
  once : (writes tr).Pairwise fun w w' => ∀ a b, RangeHas a w → RangeHas b w' →
    a / flashPageSize.toNat ≠ b / flashPageSize.toNat
  /-- A page that is written is one of a payload. -/
  named : ∀ w ∈ writes tr, ∀ a, RangeHas a w →
    ∃ r ∈ rs, r.Touches flashPageSize.toNat (a / flashPageSize.toNat)
  /-- Every page of a payload is written, all of it, if the load returns or all
  its transfers succeed. -/
  covered : (o = .ok () ∨ ∀ ev ∈ tr, Succeeded ev) →
    ∀ r ∈ rs, ∀ a, r.Touches flashPageSize.toNat (a / flashPageSize.toNat) →
      ∃ w ∈ writes tr, RangeHas a w

section Load

variable {bytes : List UInt8} {bound : UInt32} {segs : List Segment} {verify : Bool} {d : Device}
  (hparse : parse bytes bound = .ok segs) (hpages : WholePages (accepted (fileBlocks bytes)))

include hparse hpages

/-- A load of whole pages that has an erase plan programs whole pages, each once. -/
theorem programs_of_plan {erases : List (UInt32 × UInt32)} (hplan : planErase segs = some erases)
    {d' : Device} {tr : BusTrace} {o : Outcome LoadError Unit}
    (h : (load segs verify).Runs d tr o d') :
    ProgramsPages (accepted (fileBlocks bytes)) tr o := by
  have hrep := parse_represents hparse
  have hfits := hrep.fitsAddressSpace
  have hsegs := hrep.paged hpages
  obtain ⟨hpre, hall⟩ := writes_of_plan hfits hplan h
  have hmem : ∀ w ∈ writes tr, ∃ p ∈ pieces segs, (p.addr, U32.ofUsize p.data.length) = w :=
    fun w hw => List.mem_map.mp (hpre.subset hw)
  refine ⟨?_, (pieceRanges_apart hfits hsegs hrep.gap).sublist hpre.sublist, ?_, ?_⟩
  · intro w hw
    obtain ⟨p, hp, rfl⟩ := hmem w hw
    have hpaged := paged_of_mem_pieces hfits hsegs hp
    obtain ⟨hne, hle⟩ := length_le_of_mem_pieces hp
    rw [toNat_ofUsize_piece hp]
    exact ⟨hpaged.start, List.length_pos_of_ne_nil hne, hpaged.length, hle⟩
  · intro w hw a ha
    obtain ⟨p, hp, rfl⟩ := hmem w hw
    obtain ⟨r, hr, hra⟩ := (hrep.covers_pieces a).mp ⟨p, hp, (rangeHas_piece hp a).mp ha⟩
    exact ⟨r, hr, a, hra, rfl⟩
  · intro hs r hr a ha
    have hcov := (hpages r hr).1.covers flashPageSize_pos ha
    obtain ⟨p, hp, hpa⟩ := (hrep.covers_pieces a).mpr ⟨r, hr, hcov⟩
    rw [hall hs]
    exact ⟨_, List.mem_map_of_mem hp, (rangeHas_piece hp a).mpr hpa⟩

/-- A load whose erase plan overflows writes nothing, even if no transfer fails. -/
theorem not_programs_of_no_plan (hplan : planErase segs = none) (verify : Bool) (d : Device) :
    let run := (load segs verify d).exec Request.completed
    ¬ ProgramsPages (accepted (fileBlocks bytes)) run.1 run.2.1 := by
  intro run hprograms
  have hrep := parse_represents hparse
  obtain ⟨r, hr⟩ : ∃ r, r ∈ accepted (fileBlocks bytes) := by
    refine List.exists_mem_of_ne_nil _ fun hnil => ?_
    have hco := hrep.coalesced
    rw [hnil, coalesce_nil, Option.some.injEq] at hco
    rw [List.map_eq_nil_iff.mp hco.symm] at hplan
    exact absurd hplan (by simp [planErase])
  have hcovers : r.Covers r.start :=
    ⟨le_refl _, lt_of_le_of_ne r.start_le_stop fun heq =>
      (hpages r hr).2 (Run.stop_eq_start_iff.mp heq.symm)⟩
  obtain ⟨w, hw, -⟩ := hprograms.covered (.inr (succeeded_of_no_plan hplan verify d)) r hr r.start
    ⟨r.start, hcovers, rfl⟩
  rw [writes_of_no_plan hplan (Session.exec_runs Request.completed (load segs verify) d)] at hw
  simp at hw

/-- A load of whole pages programs whole pages, each once, exactly if every segment
that reaches into the last sector of the address space joins the sectors below. -/
theorem load_pages_iff :
    (∀ d' tr o, (load segs verify).Runs d tr o d' →
      ProgramsPages (accepted (fileBlocks bytes)) tr o) ↔ JoinsBelow segs := by
  have hrep := parse_represents hparse
  have hstart : ∀ s ∈ segs, 4096 ≤ s.addr.toNat := fun s hs =>
    (by decide : 4096 ≤ flashStart.toNat).trans (hrep.segment_window hs).1
  have hnone := planErase_eq_none_iff hrep.fitsAddressSpace hrep.gap hstart
  constructor
  · intro h
    by_contra hno
    exact not_programs_of_no_plan hparse hpages (hnone.mpr hno) verify d
      (h _ _ _ (Session.exec_runs Request.completed _ _))
  · intro h d' tr o hrun
    cases hplan : planErase segs with
    | none => exact absurd h (hnone.mp hplan)
    | some erases => exact programs_of_plan hparse hpages hplan hrun

end Load

/-- The data of a page. -/
def onePage : List UInt8 := List.replicate 256 1

theorem length_onePage_le : onePage.length ≤ 476 := by
  rw [onePage, List.length_replicate]
  decide

/-- A file of two pages in a row and one after a gap. -/
def threePageFile : List UInt8 :=
  fileBytes [.build uf2FlagFamilyIdPresent flashStart rp2040FamilyId onePage length_onePage_le,
    .build uf2FlagFamilyIdPresent (flashStart + 256) rp2040FamilyId onePage length_onePage_le,
    .build uf2FlagFamilyIdPresent (flashStart + 1024) rp2040FamilyId onePage length_onePage_le]

/-- The segments of `threePageFile`. -/
def threePages : List Segment :=
  [⟨flashStart, onePage ++ onePage⟩, ⟨flashStart + 1024, onePage⟩]

theorem load_pages_threePageFile :
    let run := (load threePages false ⟨0, 64, 0⟩).exec Request.completed
    ProgramsPages (accepted (fileBlocks threePageFile)) run.1 run.2.1 := by
  intro run
  have hparse : parse threePageFile flashEnd = .ok threePages := by decide +kernel
  have hpages : WholePages (accepted (fileBlocks threePageFile)) := by
    rw [threePageFile, fileBlocks_fileBytes]
    decide +kernel
  have hfits : FitsSectors threePages := by
    unfold FitsSectors
    decide +kernel
  exact (load_pages_iff hparse hpages).mpr hfits.joinsBelow _ _ _
    (Session.exec_runs Request.completed _ _)

/-- A file of one page, at the start of the last sector of the address space. -/
def topPageFile : List UInt8 :=
  fileBytes [.build uf2FlagFamilyIdPresent 0xFFFFF000 rp2040FamilyId onePage length_onePage_le]

/-- It is accepted if the bound admits it, and loading it panics before the write. -/
theorem load_pages_topPageFile :
    let segs : List Segment := [⟨0xFFFFF000, onePage⟩]
    let run := (load segs false ⟨0, 64, 0⟩).exec Request.completed
    parse topPageFile 0xFFFFFFFF = .ok segs ∧ WholePages (accepted (fileBlocks topPageFile)) ∧
      (∀ ev ∈ run.1, Succeeded ev) ∧ run.2.1 = .panic ∧ writes run.1 = [] ∧
      ¬ ProgramsPages (accepted (fileBlocks topPageFile)) run.1 run.2.1 := by
  intro segs run
  have hparse : parse topPageFile 0xFFFFFFFF = .ok segs := by decide +kernel
  have hpages : WholePages (accepted (fileBlocks topPageFile)) := by
    rw [topPageFile, fileBlocks_fileBytes]
    decide +kernel
  have hplan : planErase segs = none := by decide +kernel
  exact ⟨hparse, hpages, succeeded_of_no_plan hplan _ _, by decide +kernel, by decide +kernel,
    not_programs_of_no_plan hparse hpages hplan _ _⟩

end PicotoolRs
