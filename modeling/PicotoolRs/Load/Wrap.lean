import PicotoolRs.Load.Plan
import PicotoolRs.Load.Sectors

/-!
# PicotoolRs.Load.Wrap

Where the erase plan overflows.

`align_up` adds with wrapping, so the end of a segment that reaches into the last
sector of the address space is rounded to 0, and the range of the segment is upside
down. If it starts where a range below it reaches to, merging drops it; if not, it
stays, and the subtraction that makes a size of it underflows
(`planErase_eq_none_iff`).
-/

namespace PicotoolRs

open Lib Constants

/-- Rounding up in the last sector wraps to 0. -/
theorem alignUp_wraps {x : UInt32} (h : 0xFFFFF000 < x.toNat) :
    (alignUp x flashSectorSize).toNat = 0 := by
  have hlt := x.toNat_lt
  have hadd : (x + (flashSectorSize - 1)).toNat = x.toNat + 4095 - 2 ^ 32 := by
    rw [UInt32.toNat_add, toNat_sectorMask, Nat.mod_eq_sub_mod (by omega),
      Nat.mod_eq_of_lt (by omega)]
    rfl
  rw [alignUp, U32.toNat_and_not_mask _ _ toNat_sectorMask, hadd]
  omega

/-- A segment that reaches into the last sector of the address space. -/
def Segment.AtTop (s : Segment) : Prop := 0xFFFFF000 < s.toRun.stop

instance (s : Segment) : Decidable s.AtTop := inferInstanceAs (Decidable (_ < _))

/-- Every segment that reaches into the last sector of the address space starts in a
sector that a segment below reaches into, or in the one after it. -/
def JoinsBelow (segs : List Segment) : Prop :=
  ∀ t ∈ segs, t.AtTop → ∃ s ∈ segs, ¬ s.AtTop ∧ sectorStart t.toRun ≤ sectorStop s.toRun

instance (segs : List Segment) : Decidable (JoinsBelow segs) :=
  inferInstanceAs (Decidable (∀ t ∈ segs, _ → ∃ s ∈ segs, _))

/-- Segments that stay out of the last sector have nothing to join. -/
theorem FitsSectors.joinsBelow {segs : List Segment} (h : FitsSectors segs) : JoinsBelow segs :=
  fun t ht htop => absurd htop (not_lt.mpr (h t ht))

theorem range_snd_of_atTop {s : Segment} (hlt : s.toRun.stop < 2 ^ 32) (h : s.AtTop) :
    s.range.2.toNat = 0 := by
  have hstop := (s.endAddr_of_lt hlt).2
  exact alignUp_wraps (h.trans_eq hstop.symm)

/-- In address order the segments that reach into the last sector come last. -/
theorem split_atTop {segs : List Segment}
    (hgap : segs.Pairwise fun s t => s.toRun.stop < t.addr.toNat) :
    ∃ lows tops, segs = lows ++ tops ∧ FitsSectors lows ∧ ∀ t ∈ tops, t.AtTop := by
  induction segs with
  | nil => exact ⟨[], [], rfl, by simp [FitsSectors], by simp⟩
  | cons s segs ih =>
      obtain ⟨hs, hsegs⟩ := List.pairwise_cons.mp hgap
      by_cases htop : s.AtTop
      · refine ⟨[], s :: segs, rfl, by simp [FitsSectors], List.forall_mem_cons.mpr ⟨htop, ?_⟩⟩
        exact fun t ht => htop.trans ((hs t ht).trans_le t.toRun.start_le_stop)
      · obtain ⟨lows, tops, rfl, hlows, htops⟩ := ih hsegs
        exact ⟨s :: lows, tops, rfl, List.forall_mem_cons.mpr ⟨not_lt.mp htop, hlows⟩, htops⟩

/-- One element without an image leaves the list without one. -/
theorem mapM_eq_none {α β : Type} {f : α → Option β} {xs : List α} {x : α} (hx : x ∈ xs)
    (h : f x = none) : xs.mapM f = none := by
  induction xs with
  | nil => simp at hx
  | cons y xs ih =>
      rcases List.mem_cons.mp hx with rfl | hx
      · simp [List.mapM_cons, h]
      · cases hy : f y <;> simp [List.mapM_cons, hy, ih hx]

/-- The ranges of segments in address order ascend. -/
theorem ranges_ascending {segs : List Segment}
    (hgap : segs.Pairwise fun s t => s.toRun.stop < t.addr.toNat) :
    (segs.map Segment.range).Pairwise fun r q => r.1 ≤ q.1 := by
  refine List.pairwise_map.mpr (hgap.imp fun {s t} hst => ?_)
  have hle := s.toRun.start_le_stop.trans hst.le
  rw [UInt32.le_iff_toNat_le, toNat_range_fst, toNat_range_fst]
  exact Nat.mul_le_mul_right _ (Nat.div_le_div_right hle)

theorem mergedRanges_of_ascending {segs : List Segment}
    (hgap : segs.Pairwise fun s t => s.toRun.stop < t.addr.toNat) :
    mergedRanges segs = Intervals.merge (segs.map Segment.range) :=
  congrArg Intervals.merge (ranges_ascending hgap).insertionSort_eq

/-- Joining below, in terms of the ranges. -/
theorem joinsBelow_append_iff {lows tops : List Segment} (hlows : FitsSectors lows)
    (htops : ∀ t ∈ tops, t.AtTop) :
    JoinsBelow (lows ++ tops) ↔
      ∀ q ∈ tops.map Segment.range, ∃ r ∈ lows.map Segment.range, q.1 ≤ r.2 := by
  have hreach : ∀ t : Segment, ∀ s ∈ lows,
      (t.range.1 ≤ s.range.2 ↔ sectorStart t.toRun ≤ sectorStop s.toRun) := by
    intro t s hs
    rw [UInt32.le_iff_toNat_le, toNat_range_fst, (toNat_range (hlows s hs)).2]
  rw [List.forall_mem_map]
  simp only [List.mem_map, exists_exists_and_eq_and]
  constructor
  · intro h t ht
    obtain ⟨s, hs, hno, hle⟩ := h t (List.mem_append_right _ ht) (htops t ht)
    have hlow : s ∈ lows := (List.mem_append.mp hs).resolve_right fun hs => hno (htops s hs)
    exact ⟨s, hlow, (hreach t s hlow).mpr hle⟩
  · intro h t ht htop
    have hmem : t ∈ tops :=
      (List.mem_append.mp ht).resolve_left fun ht => not_lt.mpr (hlows t ht) htop
    obtain ⟨s, hs, hle⟩ := h t hmem
    exact ⟨s, List.mem_append_left _ hs, not_lt.mpr (hlows s hs), (hreach t s hs).mp hle⟩

/-- Of segments in address order, those at the top add nothing to the merged ranges if
they join below, and otherwise one of their ranges stays, upside down. -/
theorem mergedRanges_atTop {lows tops : List Segment} (hfits : FitsAddressSpace (lows ++ tops))
    (hgap : (lows ++ tops).Pairwise fun s t => s.toRun.stop < t.addr.toNat)
    (hstart : ∀ s ∈ lows ++ tops, 4096 ≤ s.addr.toNat) (hlows : FitsSectors lows)
    (htops : ∀ t ∈ tops, t.AtTop) :
    (JoinsBelow (lows ++ tops) ∧ mergedRanges (lows ++ tops) = mergedRanges lows) ∨
      (¬ JoinsBelow (lows ++ tops) ∧ ∃ m ∈ mergedRanges (lows ++ tops), m.2.toNat < m.1.toNat) := by
  have hsorted : Intervals.Sorted (lows.map Segment.range) :=
    ⟨List.forall_mem_map.mpr fun s hs => range_proper (hlows s hs),
      ranges_ascending (List.pairwise_append.mp hgap).1⟩
  -- the ranges at the top stop at 0, and start above it
  have hzero : ∀ q ∈ tops.map Segment.range, q.2.toNat = 0 := List.forall_mem_map.mpr fun t ht =>
    range_snd_of_atTop (hfits t (List.mem_append_right _ ht)) (htops t ht)
  have hpos : ∀ q ∈ tops.map Segment.range, 0 < q.1.toNat := List.forall_mem_map.mpr fun t ht => by
    have := hstart t (List.mem_append_right _ ht)
    rw [toNat_range_fst, sectorStart, Segment.toRun_start]
    omega
  have hlow : ∀ q ∈ tops.map Segment.range, ∀ r ∈ lows.map Segment.range, q.2 ≤ r.2 := by
    intro q hq r _
    rw [UInt32.le_iff_toNat_le, hzero q hq]
    exact Nat.zero_le _
  have hdown : ∀ q ∈ tops.map Segment.range, ∀ q' ∈ tops.map Segment.range, q.2 < q'.1 := by
    intro q hq q' hq'
    rw [UInt32.lt_iff_toNat_lt, hzero q hq]
    exact hpos q' hq'
  rw [joinsBelow_append_iff hlows htops, mergedRanges_of_ascending hgap,
    mergedRanges_of_ascending (List.pairwise_append.mp hgap).1, List.map_append]
  rcases Intervals.merge_append_low hsorted hlow hdown with
    hjoins | ⟨⟨q, hq, hnone⟩, init, m, heq, hm⟩
  · exact .inl hjoins
  · refine .inr ⟨fun hall => ?_, m, by simp [heq], ?_⟩
    · obtain ⟨r, hr, hle⟩ := hall q hq
      exact not_le.mpr (hnone r hr) hle
    · rw [hzero m hm]
      exact hpos m hm

/-- Of segments in address order that stay out of the first sector, the plan overflows
exactly if one that reaches into the last sector does not join the sectors below. -/
theorem planErase_eq_none_iff {segs : List Segment} (hfits : FitsAddressSpace segs)
    (hgap : segs.Pairwise fun s t => s.toRun.stop < t.addr.toNat)
    (hstart : ∀ s ∈ segs, 4096 ≤ s.addr.toNat) : planErase segs = none ↔ ¬ JoinsBelow segs := by
  obtain ⟨lows, tops, rfl, hlows, htops⟩ := split_atTop hgap
  rcases mergedRanges_atTop hfits hgap hstart hlows htops with
    ⟨hjoins, heq⟩ | ⟨hno, m, hm, hdown⟩
  · have hfitsLows : FitsAddressSpace lows := fun s hs => hfits s (List.mem_append_left _ hs)
    rw [planErase_sizes hfits, heq, ← planErase_sizes hfitsLows, planErase_eq hlows]
    simp [hjoins]
  · have hnone : U32.sub m.2 m.1 = none := if_neg hdown.not_ge
    rw [planErase_sizes hfits]
    exact iff_of_true (mapM_eq_none hm (by simp [hnone])) hno

end PicotoolRs
