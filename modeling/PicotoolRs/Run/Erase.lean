import PicotoolRs.Load.Sectors
import PicotoolRs.Run.Detect

/-!
# PicotoolRs.Run.Erase

Which sectors a load erases.

The plan covers the sectors of every segment, and a segment that carries bytes
has a payload byte in each of its sectors. What is erased beyond the payload
comes from segments without bytes, which a block of payload size zero leaves
behind: off a sector boundary such a segment has a sector erased, on a boundary
it can leave a command for no bytes at all.
-/

namespace PicotoolRs

open Lib Constants

/-! ### Sectors -/

/-- Some payload has a byte in sector `k`. -/
def HasPayload (rs : List (Run UInt8)) (k : Nat) : Prop :=
  ∃ r ∈ rs, ∃ a, r.Covers a ∧ a / 4096 = k

/-- The erase command `(start, size)` covers sector `k`. -/
def ErasesSector (e : UInt32 × UInt32) (k : Nat) : Prop :=
  e.1.toNat ≤ k * 4096 ∧ (k + 1) * 4096 ≤ e.1.toNat + e.2.toNat

/-- The erase commands cover exactly the sectors with payload, and none of them
is for no bytes. -/
structure ExactErases (rs : List (Run UInt8)) (erases : List (UInt32 × UInt32)) : Prop where
  sectors : {k | ∃ e ∈ erases, ErasesSector e k} = {k | HasPayload rs k}
  sizes : ∀ e ∈ erases, 0 < e.2

/-- Next to every payload of no bytes there is a byte of another one: in its own
sector, or in the one before if it starts at a sector boundary. -/
def EmptiesCovered (rs : List (Run UInt8)) : Prop :=
  ∀ r ∈ rs, r.data = [] → HasPayload rs (r.start / 4096) ∨ HasPayload rs ((r.start - 1) / 4096)

section Represents

variable {bound : UInt32} {segs : List Segment} {rs : List (Run UInt8)}
  (h : Represents bound segs rs)

include h

theorem Represents.hasPayload_iff (k : Nat) :
    HasPayload rs k ↔ ∃ s ∈ segs, ∃ a, s.toRun.Covers a ∧ a / 4096 = k := by
  have hcovers := h.toCoalesced.covers
  simp only [List.mem_map, exists_exists_and_eq_and] at hcovers
  constructor
  · intro h
    obtain ⟨r, hr, a, ha, hk⟩ := h
    obtain ⟨s, hs, hsa⟩ := (hcovers a).mpr ⟨r, hr, ha⟩
    exact ⟨s, hs, a, hsa, hk⟩
  · intro h
    obtain ⟨s, hs, a, ha, hk⟩ := h
    obtain ⟨r, hr, hra⟩ := (hcovers a).mp ⟨s, hs, ha⟩
    exact ⟨r, hr, a, hra, hk⟩

/-- A segment without bytes comes from payloads without bytes. -/
theorem Represents.empty_payload {s : Segment} (hs : s ∈ segs) (hempty : s.data = []) :
    ∃ r ∈ rs, r.data = [] ∧ r.start = s.addr.toNat := by
  have hco := h.toCoalesced
  have hmem : s.toRun ∈ segs.map Segment.toRun := List.mem_map_of_mem hs
  have hstop : s.toRun.stop = s.toRun.start := Run.stop_eq_start_iff.mpr hempty
  obtain ⟨r, hr, hstart⟩ := hco.start_mem _ hmem
  obtain ⟨t, ht, hlo, hhi⟩ := hco.inside r hr
  have hle := r.start_le_stop
  have heq : s.toRun = t :=
    hco.separated.eq_of_touch hmem ht ⟨hstart.le, by omega⟩ ⟨hlo, by omega⟩
  subst heq
  exact ⟨r, hr, Run.stop_eq_start_iff.mp (by omega), hstart.symm⟩

/-- A payload without bytes is part of a segment that has a byte next to it, or
is a segment of its own. -/
theorem Represents.segment_of_empty {r : Run UInt8} (hr : r ∈ rs) (hempty : r.data = []) :
    (HasPayload rs (r.start / 4096) ∨ HasPayload rs ((r.start - 1) / 4096)) ∨
      ∃ s ∈ segs, s.data = [] ∧ s.addr.toNat = r.start := by
  obtain ⟨t, ht, hlo, hhi⟩ := h.toCoalesced.inside r hr
  obtain ⟨s, hs, rfl⟩ := List.mem_map.mp ht
  rw [Run.stop_eq_start_iff.mpr hempty] at hhi
  rw [h.hasPayload_iff, h.hasPayload_iff]
  by_cases hdata : s.data = []
  · have hstop : s.toRun.stop = s.toRun.start := Run.stop_eq_start_iff.mpr hdata
    refine .inr ⟨s, hs, hdata, ?_⟩
    rw [← s.toRun_start]
    omega
  · have hlt : s.toRun.start < s.toRun.stop :=
      lt_of_le_of_ne s.toRun.start_le_stop fun heq => hdata (Run.stop_eq_start_iff.mp heq.symm)
    by_cases hend : r.start < s.toRun.stop
    · exact .inl (.inl ⟨s, hs, r.start, ⟨hlo, hend⟩, rfl⟩)
    · exact .inl (.inr ⟨s, hs, r.start - 1, ⟨by omega, by omega⟩, rfl⟩)

end Represents

/-! ### The plan -/

section Plan

variable {bound : UInt32} {segs : List Segment} {rs : List (Run UInt8)}
  {erases : List (UInt32 × UInt32)} (h : Represents bound segs rs) (hfits : FitsSectors segs)
  (hplan : planErase segs = some erases)

include hfits hplan in
/-- A sector is erased if its first byte is in the rounded span of a segment. -/
theorem erasesSector_iff (k : Nat) :
    (∃ e ∈ erases, ErasesSector e k) ↔
      ∃ s ∈ segs, sectorStart s.toRun ≤ k * 4096 ∧ k * 4096 < sectorStop s.toRun := by
  rw [← inRanges_planErase_iff hfits hplan]
  refine exists_congr fun e => and_congr_right fun he => ?_
  obtain ⟨-, -, t, -, -, hstop⟩ := mem_planErase hfits hplan he
  rw [ErasesSector, hstop, sectorStop]
  omega

include h hfits hplan

/-- What is erased has a payload byte, or is the sector of a segment without
bytes that does not start at a sector boundary. -/
theorem erased_iff (k : Nat) :
    (∃ e ∈ erases, ErasesSector e k) ↔ HasPayload rs k ∨
      ∃ s ∈ segs, s.data = [] ∧ s.addr.toNat % 4096 ≠ 0 ∧ s.addr.toNat / 4096 = k := by
  rw [erasesSector_iff hfits hplan, h.hasPayload_iff]
  constructor
  · intro h
    obtain ⟨s, hs, hspan⟩ := h
    by_cases hdata : s.data = []
    · obtain ⟨hoff, hk⟩ := (inSpan_iff_of_nil (r := s.toRun) hdata _).mp hspan
      rw [Nat.mul_div_cancel _ (by decide)] at hk
      exact .inr ⟨s, hs, hdata, hoff, hk.symm⟩
    · obtain ⟨a, ha, hk⟩ := (inSpan_iff_of_ne_nil (r := s.toRun) hdata _).mp hspan
      rw [Nat.mul_div_cancel _ (by decide)] at hk
      exact .inl ⟨s, hs, a, ha, hk⟩
  · intro h
    rcases h with ⟨s, hs, a, ha, rfl⟩ | ⟨s, hs, hdata, hoff, rfl⟩
    · have hdata : s.data ≠ [] := by
        intro hnil
        have hstop := Run.stop_eq_start_iff (r := s.toRun).mpr hnil
        exact absurd (ha.1.trans_lt ha.2) (by omega)
      refine ⟨s, hs, (inSpan_iff_of_ne_nil (r := s.toRun) hdata _).mpr ⟨a, ha, ?_⟩⟩
      rw [Nat.mul_div_cancel _ (by decide)]
    · refine ⟨s, hs, (inSpan_iff_of_nil (r := s.toRun) hdata _).mpr ⟨hoff, ?_⟩⟩
      rw [Nat.mul_div_cancel _ (by decide)]
      rfl

/-- If no payload without bytes stands alone, every erased sector has a payload
byte. -/
theorem sectors_of_emptiesCovered (hcov : EmptiesCovered rs) :
    {k | ∃ e ∈ erases, ErasesSector e k} = {k | HasPayload rs k} := by
  ext k
  refine (erased_iff h hfits hplan k).trans (or_iff_left_iff_imp.mpr ?_)
  intro halone
  obtain ⟨s, hs, hdata, hoff, rfl⟩ := halone
  obtain ⟨r, hr, hempty, hstart⟩ := h.empty_payload hs hdata
  rw [← hstart] at hoff ⊢
  rcases hcov r hr hempty with hk | hk
  · exact hk
  · rwa [show (r.start - 1) / 4096 = r.start / 4096 by omega] at hk

/-- If no payload without bytes stands alone, every command erases something.
-/
theorem sizes_of_emptiesCovered (hcov : EmptiesCovered rs) : ∀ e ∈ erases, 0 < e.2 := by
  intro e he
  rw [UInt32.lt_iff_toNat_lt]
  by_contra hzero
  -- then some address is touched by empty spans only
  obtain ⟨a, ⟨s, hs, hlo, hhi⟩, hall⟩ :=
    (empty_mem_planErase_iff hfits hplan).mp ⟨e, he, Nat.eq_zero_of_not_pos hzero⟩
  obtain ⟨hstart, hstop⟩ := hall s hs hlo hhi
  have hdata : s.data = [] := by
    by_contra hne
    have hin := (inSpan_iff_of_ne_nil (r := s.toRun) hne s.addr.toNat).mpr
      ⟨s.addr.toNat, ⟨le_rfl, ?_⟩, rfl⟩
    · omega
    · exact lt_of_le_of_ne s.toRun.start_le_stop fun heq => hne (Run.stop_eq_start_iff.mp heq.symm)
  obtain ⟨r, hr, hempty, hra⟩ := h.empty_payload hs hdata
  have hrun : s.toRun.start = r.start := hra.symm
  have hnil : s.toRun.stop = s.toRun.start := Run.stop_eq_start_iff.mpr hdata
  simp only [sectorStart, sectorStop] at hstart hstop
  obtain ⟨k, hk, hka⟩ : ∃ k, HasPayload rs k ∧ (k = a / 4096 ∨ k = (a - 1) / 4096) := by
    rw [show a = r.start by omega]
    rcases hcov r hr hempty with hk | hk
    · exact ⟨_, hk, .inl rfl⟩
    · exact ⟨_, hk, .inr rfl⟩
  obtain ⟨t, ht, x, ⟨hxlo, hxhi⟩, rfl⟩ := (h.hasPayload_iff k).mp hk
  have htouch := hall t ht
  simp only [sectorStart, sectorStop] at htouch
  omega

/-- If the plan is exact, no payload without bytes stands alone. -/
theorem emptiesCovered_of_exact (hexact : ExactErases rs erases) : EmptiesCovered rs := by
  intro r hr hempty
  rcases h.segment_of_empty hr hempty with hk | ⟨s, hs, hdata, haddr⟩
  · exact hk
  by_contra hno
  have hnone : ∀ k, (k = r.start / 4096 ∨ k = (r.start - 1) / 4096) →
      ¬ ∃ e ∈ erases, ErasesSector e k := by
    intro k hk herased
    have hpay : HasPayload rs k := hexact.sectors.le herased
    rcases hk with rfl | rfl
    · exact hno (.inl hpay)
    · exact hno (.inr hpay)
  by_cases hoff : r.start % 4096 = 0
  · -- the segment's span is empty, and no proper one touches it
    have hspan : sectorStart s.toRun = r.start ∧ sectorStop s.toRun = r.start := by
      have hnil : s.toRun.stop = s.toRun.start := Run.stop_eq_start_iff.mpr hdata
      have hstart : s.toRun.start = r.start := haddr
      simp only [sectorStart, sectorStop]
      omega
    obtain ⟨e, he, hzero⟩ : ∃ e ∈ erases, e.2.toNat = 0 := by
      refine (empty_mem_planErase_iff hfits hplan).mpr
        ⟨r.start, ⟨s, hs, hspan.1.le, hspan.2.ge⟩, fun t ht hlo hhi => ?_⟩
      by_contra hproper
      obtain ⟨k, hk, hin⟩ := sector_of_touch hlo hhi hproper
      exact hnone k hk ((erasesSector_iff hfits hplan k).mpr ⟨t, ht, hin⟩)
    have hpos := UInt32.lt_iff_toNat_lt.mp (hexact.sizes e he)
    exact absurd hpos (by simp [hzero])
  · -- the segment's own sector is erased
    have herased := (erased_iff h hfits hplan (r.start / 4096)).mpr
      (.inr ⟨s, hs, hdata, by rwa [haddr], by rw [haddr]⟩)
    exact hnone _ (.inl rfl) herased

/-- The plan is exact if and only if no payload without bytes stands alone. -/
theorem exactErases_iff : ExactErases rs erases ↔ EmptiesCovered rs := by
  constructor
  · exact emptiesCovered_of_exact h hfits hplan
  · intro hcov
    exact ⟨sectors_of_emptiesCovered h hfits hplan hcov, sizes_of_emptiesCovered h hfits hplan hcov⟩

end Plan

/-! ### Every file -/

/-- The erase commands of a file that parses cover exactly the sectors with
payload, and none is for no bytes, if and only if no accepted block without
bytes stands alone. -/
theorem erases_exactly_iff {bytes : List UInt8} {bound : UInt32} {segs : List Segment}
    (hres : Resolvable bound) (hparse : parse bytes bound = .ok segs) :
    (∃ erases, planErase segs = some erases ∧
        ExactErases (accepted (fileBlocks bytes)) erases) ↔
      EmptiesCovered (accepted (fileBlocks bytes)) := by
  have hrep := parse_represents hparse
  have hfits := hrep.fitsSectors hres.bounds.below
  have hplan := planErase_eq hfits
  constructor
  · intro h
    obtain ⟨erases, herases, hexact⟩ := h
    exact (exactErases_iff hrep hfits herases).mp hexact
  · exact fun hcov => ⟨_, hplan, (exactErases_iff hrep hfits hplan).mpr hcov⟩

/-- A file of one accepted block without payload. -/
def emptyBlockFile : List UInt8 :=
  fileBytes [.build uf2FlagFamilyIdPresent (flashStart + 256) rp2040FamilyId [] (by decide)]

theorem parse_emptyBlockFile : parse emptyBlockFile flashEnd = .ok [⟨flashStart + 256, []⟩] := by
  decide +kernel

/-- Its sector is erased, and nothing is written to it. -/
theorem emptyBlockFile_erases_sector :
    Resolvable flashEnd ∧ parse emptyBlockFile flashEnd = .ok [⟨flashStart + 256, []⟩] ∧
      ¬ ∃ erases, planErase [⟨flashStart + 256, []⟩] = some erases ∧
        ExactErases (accepted (fileBlocks emptyBlockFile)) erases := by
  refine ⟨resolvable_flashEnd, parse_emptyBlockFile, ?_⟩
  intro h
  obtain ⟨erases, hplan, hexact⟩ := h
  have hcomputed : planErase [⟨flashStart + 256, []⟩] = some [(flashStart, flashSectorSize)] := by
    decide +kernel
  obtain rfl := Option.some.inj (hcomputed.symm.trans hplan)
  obtain ⟨r, hr, a, ha, -⟩ : HasPayload (accepted (fileBlocks emptyBlockFile)) 0x10000 :=
    hexact.sectors.le ⟨_, List.mem_singleton_self _, by decide, by decide⟩
  have hacc : accepted (fileBlocks emptyBlockFile) = [⟨(flashStart + 256).toNat, []⟩] := by
    rw [emptyBlockFile, fileBlocks_fileBytes]
    decide
  rw [hacc, List.mem_singleton] at hr
  subst hr
  exact absurd (ha.1.trans_lt ha.2) (by simp [Run.stop])

theorem erases_exactly_iff_emptyBlockFile :
    (∃ erases, planErase [⟨flashStart + 256, []⟩] = some erases ∧
        ExactErases (accepted (fileBlocks emptyBlockFile)) erases) ↔
      EmptiesCovered (accepted (fileBlocks emptyBlockFile)) :=
  erases_exactly_iff resolvable_flashEnd parse_emptyBlockFile

end PicotoolRs
