import PicotoolRs.Run.Detect
import PicotoolRs.Uf2.Errors

/-!
# PicotoolRs.Run.Fallback

One file against two bounds.

The parser walks over a file in the same way under either bound until it meets a
block that leaves the smaller window (`scan_of_le`), so a smaller bound can only
refuse an image, never change it (`parse_of_le`). In particular the conservative
bound, which a failed detection falls back to, gives the segments that the real
size of the chip would have given, for every image that fits the chip.
-/

namespace PicotoolRs

open Lib Constants

/-! ### Two bounds -/

theorem Block.InWindow.mono {lo hi : UInt32} {b : Block} (hle : lo ≤ hi) (h : b.InWindow lo) :
    b.InWindow hi :=
  ⟨h.1, h.2.trans (UInt32.le_iff_toNat_le.mp hle)⟩

/-- A block breaks the same rule under both bounds, unless it is for this target
and leaves the smaller window. -/
theorem Block.fault_of_le {lo hi : UInt32} (hle : lo ≤ hi) (i : Nat) (earlier : List (Run UInt8))
    (b : Block) :
    b.fault lo i earlier = b.fault hi i earlier ∨
      (b.isFlash ∧ ¬ b.InWindow lo ∧
        b.fault lo i earlier = some (.addressOutOfRange i b.targetAddr b.payloadSize lo)) := by
  by_cases hwin : b.InWindow lo
  · have hwin' := hwin.mono hle
    exact .inl (by simp only [fault, verdict, hwin, hwin', not_true, if_false])
  by_cases hmagic : b.HasMagic
  · by_cases hmain : b.flags &&& uf2FlagNotMainFlash = 0
    · by_cases htag : b.flags &&& uf2FlagFamilyIdPresent = 0
      · exact .inl (by simp [fault, verdict, hmagic, hmain, htag])
      · by_cases hfam : b.familyId = rp2040FamilyId
        · by_cases hsize : uf2MaxPayload < b.payloadSize.toNat
          · exact .inl (by simp [fault, verdict, hmagic, hmain, htag, hfam, hsize])
          · -- every check before the one on the window passes
            refine .inr ⟨isFlash_iff.mpr ⟨hmain, htag, hfam⟩, hwin, ?_⟩
            simp [fault, verdict, hmagic, hmain, htag, hfam, hsize, hwin]
        · exact .inl (by simp [fault, verdict, hmagic, hmain, htag, hfam])
    · exact .inl (by simp [fault, verdict, hmagic, hmain])
  · exact .inl (by simp [fault, verdict, hmagic])

/-- The first block for this target that leaves the window below `lo`, and the
blocks before it. -/
structure FirstOutside (lo : UInt32) (bs pre : List Block) (b : Block) : Prop where
  split : ∃ post, bs = pre ++ b :: post
  before : ∀ c ∈ pre, c.isFlash → c.InWindow lo
  isFlash : b.isFlash
  outside : ¬ b.InWindow lo

/-- The walk over a file is the same under both bounds, up to the first block
that leaves the smaller window. -/
theorem scan_of_le {lo hi : UInt32} (hle : lo ≤ hi) (i : Nat) (rs : List (Run UInt8))
    (bs : List Block) :
    scan lo i rs bs = scan hi i rs bs ∨
      ∃ pre b, FirstOutside lo bs pre b ∧
        scan lo i rs bs =
          .error (.addressOutOfRange (i + pre.length) b.targetAddr b.payloadSize lo) := by
  induction bs generalizing i rs with
  | nil => exact .inl rfl
  | cons b bs ih =>
      rcases b.fault_of_le hle i rs with heq | ⟨hflash, hout, hfault⟩
      · cases hf : b.fault lo i rs with
        | some e =>
            rw [hf] at heq
            exact .inl (by simp only [scan, hf, ← heq])
        | none =>
            have hpass := Block.passes_of_fault hf
            rw [hf] at heq
            simp only [scan, hf, ← heq]
            rcases ih (i + 1) (rs ++ accepted [b]) with hscan | ⟨pre, c, hc, hscan⟩
            · exact .inl hscan
            · obtain ⟨post, rfl⟩ := hc.split
              refine .inr ⟨b :: pre, c, ⟨⟨post, rfl⟩, ?_, hc.isFlash, hc.outside⟩, ?_⟩
              · exact List.forall_mem_cons.mpr ⟨hpass.window, hc.before⟩
              · rw [hscan, List.length_cons, Nat.add_right_comm, Nat.add_assoc]
      · refine .inr ⟨[], b, ⟨⟨bs, rfl⟩, by simp, hflash, hout⟩, ?_⟩
        simp only [scan, hfault, List.length_nil, Nat.add_zero]

/-- `parse` depends on the bound only through the walk. -/
theorem parse_congr {lo hi : UInt32} {bs : List Block}
    (h : scan lo 0 [] bs = scan hi 0 [] bs) :
    parse (fileBytes bs) lo = parse (fileBytes bs) hi := by
  by_cases hne : bs = []
  · subst hne
    rfl
  rcases parse_fileBytes lo hne with ⟨e, hs, hp⟩ | ⟨hs, ⟨hacc, hp⟩ | ⟨hacc, segs, hp, hrep⟩⟩ <;>
    rcases parse_fileBytes hi hne with
      ⟨e', hs', hp'⟩ | ⟨hs', ⟨hacc', hp'⟩ | ⟨hacc', segs', hp', hrep'⟩⟩ <;>
    rw [hs, hs'] at h
  · rw [hp, hp', Except.error.inj h]
  · simp at h
  · simp at h
  · simp at h
  · rw [hp, hp']
  · exact absurd hacc hacc'
  · simp at h
  · exact absurd hacc' hacc
  · rw [hp, hp', hrep.unique hrep'.coalesced]

/-- A smaller bound gives the same outcome, or refuses the first block that
leaves its window. -/
theorem parse_of_le {lo hi : UInt32} (hle : lo ≤ hi) (bytes : List UInt8) :
    parse bytes lo = parse bytes hi ∨
      ∃ bs pre b, bytes = fileBytes bs ∧ FirstOutside lo bs pre b ∧
        parse bytes lo =
          .err (.addressOutOfRange pre.length b.targetAddr b.payloadSize lo) := by
  by_cases h0 : bytes.isEmpty = true
  · exact .inl (by simp [parse, h0])
  by_cases h1 : bytes.length % uf2BlockSize ≠ 0
  · exact .inl (by simp [parse, h0, h1])
  obtain ⟨bs, hne, rfl⟩ := exists_blocks h0 h1
  rcases scan_of_le hle 0 [] bs with hscan | ⟨pre, b, hb, hscan⟩
  · exact .inl (parse_congr hscan)
  · refine .inr ⟨bs, pre, b, rfl, hb, ?_⟩
    rcases parse_fileBytes lo hne with ⟨e, hs, hp⟩ | ⟨hs, -⟩
    · rw [hs, Nat.zero_add] at hscan
      rw [hp, Except.error.inj hscan]
    · simp [hs] at hscan

/-! ### Refusing, never changing -/

/-- What the smaller of two bounds does to a file. -/
structure OnlyRefuses (lo hi : UInt32) (bytes : List UInt8) : Prop where
  /-- What it accepts, the larger one accepts with the same segments. -/
  keeps : ∀ segs, parse bytes lo = .ok segs → parse bytes hi = .ok segs
  /-- It accepts what the larger one accepts if every segment ends at or below it.
  -/
  fits : ∀ segs, parse bytes hi = .ok segs →
    (parse bytes lo = .ok segs ↔ ∀ s ∈ segs, ∃ e, s.endAddr = some e ∧ e ≤ lo)
  /-- Otherwise it names the first accepted block whose payload ends above it. -/
  names : ∀ segs, parse bytes hi = .ok segs → parse bytes lo ≠ .ok segs →
    ∃ pre b post, bytes = fileBytes (pre ++ b :: post) ∧
      (∀ c ∈ pre, c.isFlash → c.run.stop ≤ lo.toNat) ∧ b.isFlash ∧ lo.toNat < b.run.stop ∧
      parse bytes lo = .err (.addressOutOfRange pre.length b.targetAddr b.payloadSize lo)
  /-- What the larger one rejects it rejects, in the same way or as out of range.
  -/
  errors : ∀ e, parse bytes hi = .err e → parse bytes lo = .err e ∨
    ∃ i addr size, parse bytes lo = .err (.addressOutOfRange i addr size lo)
  /-- If it is the bound of a detected chip, the conservative bound gives the same
  segments for what fits the chip. -/
  fallback : Resolvable lo → ∀ segs, parse bytes lo = .ok segs →
    parse bytes flashEnd = .ok segs

/-- A block that is accepted under the larger bound and leaves the smaller window
ends above the smaller bound. -/
theorem FirstOutside.ends_above {lo hi : UInt32} {bs pre : List Block} {b : Block}
    {segs : List Segment} (h : FirstOutside lo bs pre b) (hrep : Represents hi segs (accepted bs))
    (hpass : ∀ c ∈ bs, c.Passes hi) :
    lo.toNat < b.run.stop ∧ (∀ c ∈ pre, c.isFlash → c.run.stop ≤ lo.toNat) ∧
      ∃ s ∈ segs, lo.toNat < s.toRun.stop := by
  obtain ⟨post, rfl⟩ := h.split
  have hb := hpass b (by simp)
  have hstop := Block.stop_run (hb.size h.isFlash)
  have habove : lo.toNat < b.run.stop := by
    rw [hstop]
    by_contra hle
    exact h.outside ⟨(hb.window h.isFlash).1, Nat.not_lt.mp hle⟩
  refine ⟨habove, fun c hc hflash => ?_, ?_⟩
  · rw [Block.stop_run ((hpass c (by simp [hc])).size hflash)]
    exact (h.before c hc hflash).2
  · have hmem : b.run ∈ accepted (pre ++ b :: post) := by
      simp [accepted_append, accepted_cons, h.isFlash]
    obtain ⟨r, hr, -, hle⟩ := hrep.toCoalesced.inside _ hmem
    obtain ⟨s, hs, rfl⟩ := List.mem_map.mp hr
    exact ⟨s, hs, habove.trans_le hle⟩

theorem parse_keeps {lo hi : UInt32} (hle : lo ≤ hi) {bytes : List UInt8} {segs : List Segment}
    (h : parse bytes lo = .ok segs) : parse bytes hi = .ok segs := by
  rcases parse_of_le hle bytes with heq | ⟨_, _, _, -, -, herr⟩
  · rw [← heq, h]
  · simp [h] at herr

/-- A smaller bound refuses images and never changes one. -/
theorem parse_onlyRefuses {lo hi : UInt32} (hle : lo ≤ hi) (bytes : List UInt8) :
    OnlyRefuses lo hi bytes := by
  have hcase := parse_of_le hle bytes
  constructor
  case keeps => exact fun segs h => parse_keeps hle h
  case fits =>
    intro segs h
    constructor
    · intro hlo s hs
      obtain ⟨e, he, -, -, hend⟩ := (parse_represents hlo).endAddr hs
      exact ⟨e, he, hend⟩
    · intro hends
      rcases hcase with heq | ⟨bs, pre, b, rfl, hb, -⟩
      · rw [heq, h]
      · -- the segment that holds the block's payload would end above the bound
        have hrep := parse_represents h
        rw [fileBlocks_fileBytes] at hrep
        obtain ⟨-, -, s, hs, hlt⟩ := hb.ends_above hrep (passes_of_parse h)
        obtain ⟨e, he, hend⟩ := hends s hs
        obtain ⟨e', he', hstop, -⟩ := hrep.endAddr hs
        obtain rfl := Option.some.inj (he.symm.trans he')
        have hle' := UInt32.le_iff_toNat_le.mp hend
        rw [hstop] at hle'
        exact absurd hlt (Nat.not_lt.mpr hle')
  case names =>
    intro segs h hne
    rcases hcase with heq | ⟨bs, pre, b, rfl, hb, herr⟩
    · exact absurd (heq.trans h) hne
    · have hrep := parse_represents h
      rw [fileBlocks_fileBytes] at hrep
      obtain ⟨habove, hbefore, -⟩ := hb.ends_above hrep (passes_of_parse h)
      obtain ⟨post, rfl⟩ := hb.split
      exact ⟨pre, b, post, rfl, hbefore, hb.isFlash, habove, herr⟩
  case errors =>
    intro e h
    rcases hcase with heq | ⟨_, _, _, -, -, herr⟩
    · exact .inl (heq.trans h)
    · exact .inr ⟨_, _, _, herr⟩
  case fallback => exact fun hlo segs h => parse_keeps hlo.bounds.below h

/-- A block in the first sector and one in the third, against a bound of one
sector. -/
theorem parse_onlyRefuses_oneSector :
    let bytes := fileBytes
      [.build uf2FlagFamilyIdPresent flashStart rp2040FamilyId [1, 2] (by decide),
        .build uf2FlagFamilyIdPresent (flashStart + 8192) rp2040FamilyId [3] (by decide)]
    parse bytes flashEnd = .ok [⟨flashStart, [1, 2]⟩, ⟨flashStart + 8192, [3]⟩] ∧
      parse bytes (flashStart + 4096) =
        .err (.addressOutOfRange 1 (flashStart + 8192) 1 (flashStart + 4096)) ∧
      OnlyRefuses (flashStart + 4096) flashEnd bytes :=
  ⟨by decide +kernel, by decide +kernel, parse_onlyRefuses (by decide) _⟩

end PicotoolRs
