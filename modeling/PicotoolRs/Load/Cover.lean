import PicotoolRs.Load.Sectors

/-!
# PicotoolRs.Load.Cover

`plan_erase` computes the canonical sector cover.

For segments that all carry bytes the merged ranges are not empty either, so the
plan is determined by the sectors it covers: it does not matter in which order
the segments come (`mergedRanges_perm`).
-/

namespace PicotoolRs

open Lib Constants

/-! ### Segments that carry bytes -/

theorem sectorStart_lt_sectorStop {r : Run UInt8} (h : r.data ≠ []) :
    sectorStart r < sectorStop r := by
  have hlt := lt_of_le_of_ne r.start_le_stop fun heq => h (Run.stop_eq_start_iff.mp heq.symm)
  simp only [sectorStart, sectorStop]
  omega

theorem range_lt {s : Segment} (h : s.toRun.stop ≤ 0xFFFFF000) (hne : s.data ≠ []) :
    s.range.1 < s.range.2 := by
  obtain ⟨hlo, hhi⟩ := toNat_range h
  rw [UInt32.lt_iff_toNat_lt, hlo, hhi]
  exact sectorStart_lt_sectorStop hne

section Carrying

variable {segs : List Segment} (h : FitsSectors segs) (hne : ∀ s ∈ segs, s.data ≠ [])

include h hne

/-- Merging does not produce an empty range. -/
theorem mergedRanges_lt : ∀ r ∈ mergedRanges segs, r.1 < r.2 := by
  intro r hr
  refine lt_of_le_of_ne ((mergedRanges_separated h).proper r hr) fun heq => ?_
  have hmem : (r.1, r.1) ∈ mergedRanges segs := by
    rwa [show (r.1, r.1) = r from Prod.ext rfl heq]
  obtain ⟨⟨q, hq, hrq⟩, hall⟩ := (Intervals.empty_mem_merge (sorted_ranges h)).mp hmem
  have hempty := hall q hq hrq
  obtain ⟨s, hs, rfl⟩ := List.mem_map.mp ((List.mem_insertionSort _).mp hq)
  have hlt := range_lt (h s hs) (hne s hs)
  rw [hempty] at hlt
  exact lt_irrefl _ hlt

/-- The order of the segments does not matter. -/
theorem mergedRanges_perm {segs' : List Segment} (hp : segs.Perm segs') :
    mergedRanges segs = mergedRanges segs' := by
  have h' : FitsSectors segs' := fun s hs => h s (hp.mem_iff.mpr hs)
  have hne' : ∀ s ∈ segs', s.data ≠ [] := fun s hs => hne s (hp.mem_iff.mpr hs)
  refine (mergedRanges_separated h).eq_of_unionOf (mergedRanges_separated h')
    (mergedRanges_lt h hne) (mergedRanges_lt h' hne') ?_
  rw [mergedRanges, mergedRanges, Intervals.unionOf_merge Intervals.joins_Ico (sorted_ranges h),
    Intervals.unionOf_merge Intervals.joins_Ico (sorted_ranges h')]
  ext x
  simp only [Intervals.mem_unionOf, List.mem_insertionSort, (hp.map Segment.range).mem_iff]

end Carrying

/-! ### The cover -/

/-- A range, as start and size, has the address `x`. -/
def RangeHas (x : Nat) (e : UInt32 × UInt32) : Prop :=
  e.1.toNat ≤ x ∧ x < e.1.toNat + e.2.toNat

/-- The ranges, as start and size, are the canonical cover of the segments by
whole sectors. -/
structure SectorCover (segs : List Segment) (erases : List (UInt32 × UInt32)) : Prop where
  /-- Each range ends below the start of every later one. -/
  apart : erases.Pairwise fun e f => e.1.toNat + e.2.toNat < f.1.toNat
  /-- Each range is one or more whole sectors. -/
  sectors : ∀ e ∈ erases, 4096 ∣ e.1.toNat ∧ 4096 ∣ e.2.toNat ∧ 0 < e.2.toNat
  /-- Together they are the segments' spans rounded out to sectors. -/
  union : ∀ x, (∃ e ∈ erases, RangeHas x e) ↔
    ∃ s ∈ segs, sectorStart s.toRun ≤ x ∧ x < sectorStop s.toRun
  /-- A sector that holds a byte of a segment lies in exactly one range. -/
  once : ∀ k, (∃ s ∈ segs, ∃ y, s.toRun.Covers y ∧ y / 4096 = k) →
    ∃! e, e ∈ erases ∧ e.1.toNat ≤ k * 4096 ∧ (k + 1) * 4096 ≤ e.1.toNat + e.2.toNat

/-- Ranges that lie apart and share an address are the same. -/
theorem eq_of_apart {erases : List (UInt32 × UInt32)}
    (h : erases.Pairwise fun e f => e.1.toNat + e.2.toNat < f.1.toNat) {e f : UInt32 × UInt32}
    (he : e ∈ erases) (hf : f ∈ erases) {x : Nat} (hx : RangeHas x e) (hx' : RangeHas x f) :
    e = f := by
  let same : UInt32 × UInt32 → UInt32 × UInt32 → Prop :=
    fun e f => RangeHas x e → RangeHas x f → e = f
  have hrefl : ∀ e ∈ erases, same e e := fun _ _ _ _ => rfl
  have hright : erases.Pairwise same := h.imp fun {e f} hlt hxe hxf => by
    have := hxe.2
    have := hxf.1
    omega
  have hleft : erases.Pairwise (flip same) := hright.imp fun hsame hxe hxf => (hsame hxf hxe).symm
  exact hright.forall_of_forall_of_flip hrefl hleft he hf hx hx'

/-- The plan for segments that carry bytes is their canonical cover, and every
order of the segments gives the same plan. -/
theorem planErase_canonical {segs : List Segment} (hne : ∀ s ∈ segs, s.data ≠ [])
    (hfits : ∀ s ∈ segs, s.addr.toNat + s.data.length ≤ 0xFFFFF000) :
    ∃ erases, planErase segs = some erases ∧ SectorCover segs erases ∧
      ∀ segs', segs.Perm segs' → planErase segs' = some erases := by
  have h : FitsSectors segs := hfits
  have hplan := planErase_eq h
  refine ⟨_, hplan, ?_, fun segs' hp => ?_⟩
  · have hspan : ∀ r ∈ mergedRanges segs, r.1.toNat + (r.2 - r.1).toNat = r.2.toNat := by
      intro r hr
      have hle := (mergedRanges_separated h).proper r hr
      rw [UInt32.toNat_sub_of_le _ _ hle, Nat.add_sub_cancel' (UInt32.le_iff_toNat_le.mp hle)]
    have hsectors : ∀ e ∈ (mergedRanges segs).map fun r => (r.1, r.2 - r.1),
        4096 ∣ e.1.toNat ∧ 4096 ∣ e.2.toNat ∧ 0 < e.2.toNat := by
      intro e he
      obtain ⟨s, -, t, -, hstart, hstop⟩ := mem_planErase h hplan he
      obtain ⟨r, hr, rfl⟩ := List.mem_map.mp he
      have hlt := UInt32.lt_iff_toNat_lt.mp (mergedRanges_lt h hne r hr)
      have hsum := hspan r hr
      simp only [sectorStart, sectorStop] at hstart hstop ⊢
      omega
    have hapart : ((mergedRanges segs).map fun r => (r.1, r.2 - r.1)).Pairwise
        fun e f => e.1.toNat + e.2.toNat < f.1.toNat := by
      refine List.pairwise_map.mpr ((mergedRanges_separated h).apart.imp_of_mem ?_)
      intro r q hr _ hlt
      rw [hspan r hr]
      exact UInt32.lt_iff_toNat_lt.mp hlt
    have hunion := inRanges_planErase_iff h hplan
    refine ⟨hapart, hsectors, hunion, fun k hk => ?_⟩
    obtain ⟨s, hs, y, hy, hyk⟩ := hk
    -- the range that covers the first byte of the sector covers all of it
    have hin := (inSpan_iff_of_ne_nil (hne s hs) (k * 4096)).mpr ⟨y, hy, by omega⟩
    obtain ⟨e, he, hle, hlt⟩ := (hunion (k * 4096)).mpr ⟨s, hs, hin⟩
    obtain ⟨⟨a, ha⟩, ⟨b, hb⟩, -⟩ := hsectors e he
    refine ⟨e, ⟨he, hle, by omega⟩, fun f hf => ?_⟩
    obtain ⟨hf, hle', hlt'⟩ := hf
    exact eq_of_apart hapart hf he (x := k * 4096) ⟨hle', by omega⟩ ⟨hle, hlt⟩
  · rw [mergedRanges_perm h hne hp]
    exact planErase_eq fun s hs => h s (hp.mem_iff.mpr hs)

/-- Three segments out of order: two share a sector, and one is adjacent. -/
theorem planErase_canonical_threeSegments :
    let segs : List Segment :=
      [⟨flashStart + 4000, [1]⟩, ⟨flashStart + 4096, [2]⟩, ⟨flashStart, [3]⟩]
    ∃ erases, planErase segs = some erases ∧ SectorCover segs erases ∧
      ∀ segs', segs.Perm segs' → planErase segs' = some erases :=
  planErase_canonical (by decide) (by decide)

end PicotoolRs
