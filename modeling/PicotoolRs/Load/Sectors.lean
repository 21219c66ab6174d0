import PicotoolRs.Load
import PicotoolRs.Uf2.Sound

/-!
# PicotoolRs.Load.Sectors

What `plan_erase` computes.

For segments that end at least one sector below the top of the address space no
addition wraps and no subtraction underflows (`planErase_eq`), and the plan is
the merged list of the segments' spans rounded out to sectors. Its ranges start
and end where a rounded span does (`mem_planErase`), together they cover exactly
the rounded spans (`inRanges_planErase_iff`), and one is empty exactly where an
empty span touches no other (`empty_mem_planErase_iff`).
-/

namespace PicotoolRs

open Lib Constants

/-! ### Rounding -/

theorem toNat_sectorMask : (flashSectorSize - 1).toNat = 2 ^ 12 - 1 := by decide

theorem toNat_alignDown (x : UInt32) :
    (alignDown x flashSectorSize).toNat = x.toNat / 4096 * 4096 :=
  U32.toNat_and_not_mask x (flashSectorSize - 1) toNat_sectorMask

/-- Rounding up does not wrap below the last sector. -/
theorem toNat_alignUp {x : UInt32} (h : x.toNat ≤ 0xFFFFF000) :
    (alignUp x flashSectorSize).toNat = (x.toNat + 4095) / 4096 * 4096 := by
  have hadd : (x + (flashSectorSize - 1)).toNat = x.toNat + 4095 := by
    rw [UInt32.toNat_add, toNat_sectorMask, Nat.mod_eq_of_lt (by omega)]
    rfl
  rw [alignUp, U32.toNat_and_not_mask _ _ toNat_sectorMask, hadd]
  rfl

/-- The start of the first sector of a run. -/
def sectorStart (r : Run UInt8) : Nat := r.start / 4096 * 4096

/-- The end of the last sector of a run. -/
def sectorStop (r : Run UInt8) : Nat := (r.stop + 4095) / 4096 * 4096

theorem sectorStart_le_sectorStop (r : Run UInt8) : sectorStart r ≤ sectorStop r := by
  have := r.start_le_stop
  simp only [sectorStart, sectorStop]
  omega

/-- A proper rounded span that touches an address contains a sector next to it.
-/
theorem sector_of_touch {r : Run UInt8} {a : Nat} (hlo : sectorStart r ≤ a) (hhi : a ≤ sectorStop r)
    (hproper : ¬ (sectorStart r = a ∧ sectorStop r = a)) :
    ∃ k, (k = a / 4096 ∨ k = (a - 1) / 4096) ∧
      sectorStart r ≤ k * 4096 ∧ k * 4096 < sectorStop r := by
  simp only [sectorStart, sectorStop] at hlo hhi hproper ⊢
  by_cases hafter : a < (r.stop + 4095) / 4096 * 4096
  · exact ⟨a / 4096, .inl rfl, by omega, by omega⟩
  · exact ⟨(a - 1) / 4096, .inr rfl, by omega, by omega⟩

/-- The rounded span of a run with data is made of the sectors it has data in.
-/
theorem inSpan_iff_of_ne_nil {r : Run UInt8} (h : r.data ≠ []) (x : Nat) :
    (sectorStart r ≤ x ∧ x < sectorStop r) ↔ ∃ y, r.Covers y ∧ y / 4096 = x / 4096 := by
  have hlt : r.start < r.stop :=
    lt_of_le_of_ne r.start_le_stop fun heq => h (Run.stop_eq_start_iff.mp heq.symm)
  simp only [sectorStart, sectorStop, Run.Covers]
  constructor
  · intro h
    obtain ⟨hlo, hhi⟩ := h
    exact ⟨max r.start (x / 4096 * 4096), by omega, by omega⟩
  · intro h
    obtain ⟨y, ⟨hlo, hhi⟩, hy⟩ := h
    omega

/-- The rounded span of a run without data is the sector it starts in, or
nothing if it starts at a sector boundary. -/
theorem inSpan_iff_of_nil {r : Run UInt8} (h : r.data = []) (x : Nat) :
    (sectorStart r ≤ x ∧ x < sectorStop r) ↔ r.start % 4096 ≠ 0 ∧ x / 4096 = r.start / 4096 := by
  simp only [sectorStart, sectorStop, Run.stop_eq_start_iff.mpr h]
  omega

/-- Rounding up the end of every segment stays in the address space. -/
def FitsSectors (segs : List Segment) : Prop := ∀ s ∈ segs, s.toRun.stop ≤ 0xFFFFF000

/-- Below the conservative bound there is room for rounding up. -/
theorem Represents.fitsSectors {bound : UInt32} {segs : List Segment} {rs : List (Run UInt8)}
    (h : Represents bound segs rs) (hle : bound ≤ flashEnd) : FitsSectors segs := by
  intro s hs
  have hstop := (h.segment_window hs).2
  rw [UInt32.le_iff_toNat_le, toNat_flashEnd] at hle
  omega

/-- The span of a segment, rounded out. -/
def Segment.range (s : Segment) : UInt32 × UInt32 :=
  (alignDown s.addr flashSectorSize,
    alignUp (s.addr + U32.ofUsize s.data.length) flashSectorSize)

section Range

variable {s : Segment}

theorem Segment.endAddr_of_lt (h : s.toRun.stop < 2 ^ 32) :
    s.endAddr = some (s.addr + U32.ofUsize s.data.length) ∧
      (s.addr + U32.ofUsize s.data.length).toNat = s.toRun.stop := by
  obtain ⟨e, he, hstop⟩ := s.endAddr_eq_some h
  have hsome : s.endAddr = some (s.addr + U32.ofUsize s.data.length) := by
    unfold Segment.endAddr U32.add at he ⊢
    split at he
    · next hlt => rw [if_pos hlt]
    · exact absurd he (by simp)
  obtain rfl : e = _ := Option.some.inj (he.symm.trans hsome)
  exact ⟨hsome, hstop⟩

theorem eraseRange_eq (h : s.toRun.stop < 2 ^ 32) : eraseRange s = some s.range := by
  rw [eraseRange, (s.endAddr_of_lt h).1]
  rfl

theorem toNat_range_fst (s : Segment) : s.range.1.toNat = sectorStart s.toRun := toNat_alignDown _

theorem toNat_range (h : s.toRun.stop ≤ 0xFFFFF000) :
    s.range.1.toNat = sectorStart s.toRun ∧ s.range.2.toNat = sectorStop s.toRun := by
  refine ⟨toNat_range_fst s, ?_⟩
  have hstop := (s.endAddr_of_lt (h.trans_lt (by decide))).2
  rw [Segment.range, toNat_alignUp (hstop.trans_le h), hstop]
  rfl

theorem range_proper (h : s.toRun.stop ≤ 0xFFFFF000) : s.range.1 ≤ s.range.2 := by
  obtain ⟨hlo, hhi⟩ := toNat_range h
  rw [UInt32.le_iff_toNat_le, hlo, hhi]
  exact sectorStart_le_sectorStop _

end Range

/-! ### The plan -/

/-- The merged ranges of the segments. -/
def mergedRanges (segs : List Segment) : List (UInt32 × UInt32) :=
  Intervals.merge ((segs.map Segment.range).insertionSort fun r q => r.1 ≤ q.1)

theorem mapM_eq_some_map {α β : Type} {f : α → Option β} {g : α → β} {xs : List α}
    (h : ∀ x ∈ xs, f x = some (g x)) : xs.mapM f = some (xs.map g) := by
  induction xs with
  | nil => rfl
  | cons x xs ih =>
      rw [List.forall_mem_cons] at h
      simp [List.mapM_cons, h.1, ih h.2]

/-- The plan is the merged ranges, as start and size, if each has a size. -/
theorem planErase_sizes {segs : List Segment} (h : ∀ s ∈ segs, s.toRun.stop < 2 ^ 32) :
    planErase segs = (mergedRanges segs).mapM fun r => do return (r.1, ← U32.sub r.2 r.1) := by
  have hranges : segs.mapM eraseRange = some (segs.map Segment.range) :=
    mapM_eq_some_map fun s hs => eraseRange_eq (h s hs)
  rw [planErase, hranges]
  rfl

section Plan

variable {segs : List Segment} (h : FitsSectors segs)

include h

theorem sorted_ranges :
    Intervals.Sorted ((segs.map Segment.range).insertionSort fun r q => r.1 ≤ q.1) := by
  refine Intervals.sorted_insertionSort fun r hr => ?_
  obtain ⟨s, hs, rfl⟩ := List.mem_map.mp hr
  exact range_proper (h s hs)

theorem mergedRanges_separated : Intervals.Separated (mergedRanges segs) :=
  Intervals.merge_separated (sorted_ranges h)

/-- The plan is the merged ranges, as start and size. -/
theorem planErase_eq :
    planErase segs = some ((mergedRanges segs).map fun r => (r.1, r.2 - r.1)) := by
  rw [planErase_sizes fun s hs => (h s hs).trans_lt (by decide)]
  refine mapM_eq_some_map fun r hr => ?_
  have hle := UInt32.le_iff_toNat_le.mp ((mergedRanges_separated h).proper r hr)
  rw [U32.sub, if_pos hle]
  rfl

/-- Where the ranges of the plan lie. -/
theorem mem_planErase {erases : List (UInt32 × UInt32)} (hplan : planErase segs = some erases)
    {e : UInt32 × UInt32} (he : e ∈ erases) :
    ∃ s ∈ segs, ∃ t ∈ segs, e.1.toNat = sectorStart s.toRun ∧
      e.1.toNat + e.2.toNat = sectorStop t.toRun := by
  obtain rfl := Option.some.inj ((planErase_eq h).symm.trans hplan)
  obtain ⟨r, hr, rfl⟩ := List.mem_map.mp he
  have hle := UInt32.le_iff_toNat_le.mp ((mergedRanges_separated h).proper r hr)
  obtain ⟨q, hq, hstart⟩ := Intervals.start_of_mem_merge hr
  obtain ⟨p, hp, hstop⟩ := Intervals.stop_of_mem_merge hr
  obtain ⟨s, hs, rfl⟩ := List.mem_map.mp ((List.mem_insertionSort _).mp hq)
  obtain ⟨t, ht, rfl⟩ := List.mem_map.mp ((List.mem_insertionSort _).mp hp)
  refine ⟨s, hs, t, ht, ?_, ?_⟩
  · rw [← (toNat_range (h s hs)).1, ← hstart]
  · rw [← (toNat_range (h t ht)).2, ← hstop,
      UInt32.toNat_sub_of_le _ _ (UInt32.le_iff_toNat_le.mpr hle)]
    exact Nat.add_sub_cancel' hle

/-- Some range of the plan covers an address exactly if some rounded span does.
-/
theorem inRanges_planErase_iff {erases : List (UInt32 × UInt32)}
    (hplan : planErase segs = some erases) (x : Nat) :
    (∃ e ∈ erases, e.1.toNat ≤ x ∧ x < e.1.toNat + e.2.toNat) ↔
      ∃ s ∈ segs, sectorStart s.toRun ≤ x ∧ x < sectorStop s.toRun := by
  obtain rfl := Option.some.inj ((planErase_eq h).symm.trans hplan)
  have hjoins : Intervals.Joins fun a b : UInt32 => Set.Ico a.toNat b.toNat := by
    intro a b c d hab hcd hac hcb
    simp only [UInt32.le_iff_toNat_le] at hab hcd hac hcb
    dsimp only
    rw [Set.Ico_union_Ico' hcb (hac.trans hcd), min_eq_left hac, U32.toNat_max]
  have hunion := Set.ext_iff.mp (Intervals.unionOf_merge hjoins (sorted_ranges h)) x
  simp only [Intervals.mem_unionOf, List.mem_insertionSort, Set.mem_Ico, List.mem_map] at hunion
  have hspan : (∃ e ∈ (mergedRanges segs).map fun r => (r.1, r.2 - r.1),
      e.1.toNat ≤ x ∧ x < e.1.toNat + e.2.toNat) ↔
      ∃ r ∈ mergedRanges segs, r.1.toNat ≤ x ∧ x < r.2.toNat := by
    simp only [List.mem_map, exists_exists_and_eq_and]
    refine exists_congr fun r => and_congr_right fun hr => ?_
    have hle := (mergedRanges_separated h).proper r hr
    rw [UInt32.toNat_sub_of_le _ _ hle, Nat.add_sub_cancel' (UInt32.le_iff_toNat_le.mp hle)]
  rw [hspan]
  refine hunion.trans ?_
  constructor
  · intro h
    obtain ⟨r, ⟨s, hs, rfl⟩, hx⟩ := h
    rw [(toNat_range (h s hs)).1, (toNat_range (h s hs)).2] at hx
    exact ⟨s, hs, hx⟩
  · intro h
    obtain ⟨s, hs, hx⟩ := h
    rw [← (toNat_range (h s hs)).1, ← (toNat_range (h s hs)).2] at hx
    exact ⟨_, ⟨s, hs, rfl⟩, hx⟩

/-- A range of the plan is empty exactly where some rounded span touches an
address and every one that does is empty there. -/
theorem empty_mem_planErase_iff {erases : List (UInt32 × UInt32)}
    (hplan : planErase segs = some erases) :
    (∃ e ∈ erases, e.2.toNat = 0) ↔
      ∃ a, (∃ s ∈ segs, sectorStart s.toRun ≤ a ∧ a ≤ sectorStop s.toRun) ∧
        ∀ s ∈ segs, sectorStart s.toRun ≤ a → a ≤ sectorStop s.toRun →
          sectorStart s.toRun = a ∧ sectorStop s.toRun = a := by
  obtain rfl := Option.some.inj ((planErase_eq h).symm.trans hplan)
  have hmerge := fun s => Intervals.empty_mem_merge (sorted_ranges h) (s := s)
  simp only [List.mem_insertionSort, List.mem_map, Set.mem_Icc, forall_exists_index, and_imp,
    forall_apply_eq_imp_iff₂, exists_exists_and_eq_and] at hmerge
  simp only [UInt32.le_iff_toNat_le, Prod.ext_iff, ← UInt32.toNat_inj] at hmerge
  -- the same, with the ranges of the segments spelled out
  have hspan : ∀ s : UInt32, (s, s) ∈ mergedRanges segs ↔
      (∃ t ∈ segs, sectorStart t.toRun ≤ s.toNat ∧ s.toNat ≤ sectorStop t.toRun) ∧
        ∀ t ∈ segs, sectorStart t.toRun ≤ s.toNat → s.toNat ≤ sectorStop t.toRun →
          sectorStart t.toRun = s.toNat ∧ sectorStop t.toRun = s.toNat := by
    intro s
    refine (hmerge s).trans (and_congr (exists_congr fun t => and_congr_right fun ht => ?_)
      (forall₂_congr fun t ht => ?_))
    · rw [(toNat_range (h t ht)).1, (toNat_range (h t ht)).2]
    · rw [(toNat_range (h t ht)).1, (toNat_range (h t ht)).2]
  constructor
  · intro h
    obtain ⟨e, he, hzero⟩ := h
    obtain ⟨r, hr, rfl⟩ := List.mem_map.mp he
    have hle := (mergedRanges_separated h).proper r hr
    rw [UInt32.toNat_sub_of_le _ _ hle] at hzero
    have heq : r.2 = r.1 := UInt32.toNat_inj.mp
      (le_antisymm (Nat.sub_eq_zero_iff_le.mp hzero) (UInt32.le_iff_toNat_le.mp hle))
    have hmem : (r.1, r.1) ∈ mergedRanges segs := by
      rwa [show (r.1, r.1) = r from Prod.ext rfl heq.symm]
    exact ⟨_, (hspan r.1).mp hmem⟩
  · intro h
    obtain ⟨a, ⟨s, hs, hlo, hhi⟩, hall⟩ := h
    obtain ⟨rfl, -⟩ := hall s hs hlo hhi
    have hstart := (toNat_range (h s hs)).1
    rw [← hstart] at hhi hall
    have hmem := (hspan s.range.1).mpr ⟨⟨s, hs, hstart.ge, hhi⟩, hall⟩
    exact ⟨_, List.mem_map_of_mem hmem, by simp⟩

end Plan

end PicotoolRs
