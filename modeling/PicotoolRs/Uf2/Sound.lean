import PicotoolRs.Uf2.Scan

/-!
# PicotoolRs.Uf2.Sound

What a successful `parse` guarantees.

`parse_represents` is the lemma the rest of the development uses: the segments
stand for the payloads of the file's accepted blocks. `parse_sound` spells out
what that means for whoever reads the segments, in the segments' own terms.
-/

namespace PicotoolRs

open Lib Constants

/-! ### Whatever the file -/

/-- A non-empty file of whole blocks is the bytes of at least one block. -/
theorem exists_blocks {bytes : List UInt8} (h0 : ¬ bytes.isEmpty = true)
    (h1 : ¬ bytes.length % uf2BlockSize ≠ 0) : ∃ bs, bs ≠ [] ∧ bytes = fileBytes bs := by
  obtain ⟨bs, rfl⟩ := exists_fileBytes (Nat.dvd_of_mod_eq_zero (not_not.mp h1))
  refine ⟨bs, ?_, rfl⟩
  intro heq
  subst heq
  exact h0 rfl

/-- No input makes the parser panic: no slice is out of range and no end of a
segment overflows. -/
theorem parse_ne_panic (bytes : List UInt8) (flashEnd : UInt32) :
    parse bytes flashEnd ≠ .panic := by
  by_cases h0 : bytes.isEmpty = true
  · simp [parse, h0]
  by_cases h1 : bytes.length % uf2BlockSize ≠ 0
  · simp [parse, h0, h1]
  obtain ⟨bs, hne, rfl⟩ := exists_blocks h0 h1
  rcases parse_fileBytes flashEnd hne with
    ⟨e, -, h⟩ | ⟨-, ⟨-, h⟩ | ⟨-, segs, h, -⟩⟩ <;> simp [h]

/-- A file that parses is a file of blocks in which `scan` finds no fault, and
its segments stand for the accepted payloads. -/
theorem parse_eq_ok {bytes : List UInt8} {flashEnd : UInt32} {segs : List Segment}
    (h : parse bytes flashEnd = .ok segs) :
    ∃ bs, bytes = fileBytes bs ∧ scan flashEnd 0 [] bs = .ok (accepted bs) ∧ accepted bs ≠ [] ∧
      Represents flashEnd segs (accepted bs) := by
  by_cases h0 : bytes.isEmpty = true
  · simp [parse, h0] at h
  by_cases h1 : bytes.length % uf2BlockSize ≠ 0
  · simp [parse, h0, h1] at h
  obtain ⟨bs, hne, rfl⟩ := exists_blocks h0 h1
  rcases parse_fileBytes flashEnd hne with
    ⟨e, -, h'⟩ | ⟨hscan, ⟨-, h'⟩ | ⟨hacc, segs', h', hrep⟩⟩
  · simp [h'] at h
  · simp [h'] at h
  · obtain rfl : segs' = segs := by simpa [h'] using h
    exact ⟨bs, rfl, hscan, hacc, hrep⟩

/-- The segments of a file that parses stand for its accepted payloads. -/
theorem parse_represents {bytes : List UInt8} {flashEnd : UInt32} {segs : List Segment}
    (h : parse bytes flashEnd = .ok segs) :
    Represents flashEnd segs (accepted (fileBlocks bytes)) := by
  obtain ⟨bs, rfl, -, -, hrep⟩ := parse_eq_ok h
  rwa [fileBlocks_fileBytes]

/-! ### Reading the segments -/

namespace Represents

variable {flashEnd : UInt32} {segs : List Segment} {rs : List (Run UInt8)}

theorem toCoalesced (h : Represents flashEnd segs rs) :
    Coalesced rs (segs.map Segment.toRun) := coalesce_coalesced h.coalesced

/-- The end of a segment is computed exactly, and the segment lies in the flash
window. -/
theorem endAddr (h : Represents flashEnd segs rs) {s : Segment} (hs : s ∈ segs) :
    ∃ e, s.endAddr = some e ∧ e.toNat = s.addr.toNat + s.data.length ∧ flashStart ≤ s.addr ∧
      e ≤ flashEnd := by
  obtain ⟨e, he, hstop⟩ := s.endAddr_eq_some (h.stop_lt hs)
  obtain ⟨hlo, hhi⟩ := h.segment_window hs
  exact ⟨e, he, hstop, UInt32.le_iff_toNat_le.mpr hlo,
    UInt32.le_iff_toNat_le.mpr (hstop.trans_le hhi)⟩

/-- Of two segments, the earlier one ends before the later one starts. -/
theorem gap (h : Represents flashEnd segs rs) :
    segs.Pairwise fun s t => s.toRun.stop < t.addr.toNat :=
  List.pairwise_map.mp h.toCoalesced.separated

theorem flatMap_data (h : Represents flashEnd segs rs) :
    segs.flatMap Segment.data = rs.flatMap Run.data := by
  rw [← h.toCoalesced.data, List.flatMap_map]
  rfl

theorem holds (h : Represents flashEnd segs rs) (a : Nat) (v : UInt8) :
    (∃ s ∈ segs, s.toRun.Holds a v) ↔ ∃ r ∈ rs, r.Holds a v := by
  rw [← h.toCoalesced.holds]
  simp

end Represents

/-! ### Soundness -/

/-- The segments are a sound and canonical reading of the blocks. -/
structure SoundSegments (flashEnd : UInt32) (bs : List Block) (segs : List Segment) : Prop where
  /-- The end of every segment is computed without overflow, and the segment
  lies in the flash window. -/
  ends : ∀ s ∈ segs, ∃ e, s.endAddr = some e ∧ e.toNat = s.addr.toNat + s.data.length ∧
    flashStart ≤ s.addr ∧ e ≤ flashEnd
  /-- A segment ends before the next one starts. -/
  gaps : ∀ i (hi : i + 1 < segs.length), ∃ e, segs[i].endAddr = some e ∧ segs[i].addr ≤ e ∧
    e < segs[i + 1].addr
  /-- The bytes of the segments are the accepted payloads, in file order. -/
  data : segs.flatMap Segment.data = (bs.filter Block.isFlash).flatMap Block.payload
  /-- A segment holds a byte at an address exactly if an accepted block puts it
  there. -/
  holds : ∀ (a : Nat) (v : UInt8), (∃ s ∈ segs, s.toRun.Holds a v) ↔
    ∃ b ∈ bs, b.isFlash ∧ b.run.Holds a v

/-- `parse` never overflows, and what it returns is a sound reading of the
file's blocks. -/
theorem parse_sound (bytes : List UInt8) (flashEnd : UInt32) :
    parse bytes flashEnd ≠ .panic ∧
      ∀ segs, parse bytes flashEnd = .ok segs →
        SoundSegments flashEnd (fileBlocks bytes) segs := by
  refine ⟨parse_ne_panic bytes flashEnd, fun segs h => ?_⟩
  have hrep := parse_represents h
  constructor
  case ends => exact fun s hs => hrep.endAddr hs
  case gaps =>
    intro i hi
    obtain ⟨e, he, hstop, -⟩ := hrep.endAddr (List.getElem_mem (Nat.lt_of_succ_lt hi))
    have hgap := List.pairwise_iff_getElem.mp hrep.gap i (i + 1) (by omega) hi (by omega)
    exact ⟨e, he, UInt32.le_iff_toNat_le.mpr (hstop ▸ Nat.le_add_right _ _),
      UInt32.lt_iff_toNat_lt.mpr (hstop.trans_lt hgap)⟩
  case data =>
    rw [hrep.flatMap_data, accepted, List.flatMap_map]
    rfl
  case holds =>
    intro a v
    rw [hrep.holds]
    simp [accepted, and_assoc]

/-- Three accepted blocks around a foreign one, two of them adjacent. -/
theorem parse_sound_three_blocks :
    let bytes := fileBytes
      [.build uf2FlagFamilyIdPresent flashStart rp2040FamilyId [1, 2] (by decide),
        .build uf2FlagFamilyIdPresent flashStart 0 [9] (by decide),
        .build uf2FlagFamilyIdPresent (flashStart + 2) rp2040FamilyId [3] (by decide),
        .build uf2FlagFamilyIdPresent (flashStart + 8) rp2040FamilyId [4] (by decide)]
    SoundSegments flashEnd (fileBlocks bytes)
      [⟨flashStart, [1, 2, 3]⟩, ⟨flashStart + 8, [4]⟩] :=
  (parse_sound _ _).2 _ (by decide +kernel)

end PicotoolRs
