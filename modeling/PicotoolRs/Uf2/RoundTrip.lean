import Mathlib.Data.List.Chain
import PicotoolRs.Uf2.Sound

/-!
# PicotoolRs.Uf2.RoundTrip

`parse` undoes encoding, for every way a UF2 writer can go about it.

A writer cuts the bytes of each segment into pieces and puts one piece into one
block, in order; it may put blocks for other targets anywhere between them.
`Encodes rs bs` relates the pieces `rs`, each at its address, to the blocks
`bs`, and leaves every field that a reader has to ignore open.

The proof is that the accepted payloads of such a file are the pieces
(`Encodes.accepted`) and that coalescing pieces of separated segments gives back
the segments (`coalesce_layOut`).
-/

namespace PicotoolRs

open Lib Constants

/-! ### Writers -/

namespace Block

/-- The block carries the piece `r`. All other flags, the block number and
count, and the bytes after the payload are arbitrary. -/
structure Carries (b : Block) (r : Run UInt8) : Prop where
  magic : b.HasMagic
  main : b.flags &&& uf2FlagNotMainFlash = 0
  tagged : b.flags &&& uf2FlagFamilyIdPresent ≠ 0
  family : b.familyId = rp2040FamilyId
  addr : b.targetAddr.toNat = r.start
  size : b.payloadSize.toNat = r.data.length
  data : b.data.take r.data.length = r.data

/-- The block is for another target: flagged not-main-flash or tagged with
another family. All its other fields are arbitrary. -/
structure Skippable (b : Block) : Prop where
  magic : b.HasMagic
  other : b.flags &&& uf2FlagNotMainFlash ≠ 0 ∨
    (b.flags &&& uf2FlagFamilyIdPresent ≠ 0 ∧ b.familyId ≠ rp2040FamilyId)

theorem Carries.isFlash {b : Block} {r : Run UInt8} (h : b.Carries r) : b.isFlash :=
  isFlash_iff.mpr ⟨h.main, h.tagged, h.family⟩

theorem Carries.run_eq {b : Block} {r : Run UInt8} (h : b.Carries r) : b.run = r := by
  rw [run, payload, h.addr, h.size, h.data]

theorem Carries.passes {b : Block} {r : Run UInt8} {flashEnd : UInt32} (h : b.Carries r)
    (hsize : r.data.length ≤ uf2MaxPayload)
    (hwin : flashStart.toNat ≤ r.start ∧ r.stop ≤ flashEnd.toNat) : b.Passes flashEnd where
  magic := h.magic
  family := fun _ => h.tagged
  size := fun _ => h.size.trans_le hsize
  window := fun _ => by
    rw [InWindow, h.addr, h.size]
    exact hwin

theorem Skippable.not_isFlash {b : Block} (h : b.Skippable) : ¬ b.isFlash := fun hf => by
  obtain ⟨hmain, htag, hfam⟩ := isFlash_iff.mp hf
  rcases h.other with hother | ⟨-, hother⟩
  · exact hother hmain
  · exact hother hfam

theorem Skippable.passes {b : Block} (h : b.Skippable) (flashEnd : UInt32) :
    b.Passes flashEnd where
  magic := h.magic
  family := fun hmain => by
    rcases h.other with hother | ⟨htag, -⟩
    · exact absurd hmain hother
    · exact htag
  size := fun hf => absurd hf h.not_isFlash
  window := fun hf => absurd hf h.not_isFlash

end Block

/-- The blocks carry the pieces in order, one piece each, with skippable blocks
anywhere in between. -/
inductive Encodes : List (Run UInt8) → List Block → Prop
  | nil : Encodes [] []
  | piece {r : Run UInt8} {rs : List (Run UInt8)} {b : Block} {bs : List Block} :
      b.Carries r → Encodes rs bs → Encodes (r :: rs) (b :: bs)
  | skip {rs : List (Run UInt8)} {b : Block} {bs : List Block} :
      b.Skippable → Encodes rs bs → Encodes rs (b :: bs)

/-- What is accepted from the blocks is the pieces. -/
theorem Encodes.accepted {rs : List (Run UInt8)} {bs : List Block} (h : Encodes rs bs) :
    accepted bs = rs := by
  induction h with
  | nil => rfl
  | piece hb _ ih => rw [accepted_cons, if_pos hb.isFlash, hb.run_eq, ih]
  | skip hb _ ih => rw [accepted_cons, if_neg hb.not_isFlash, ih]

theorem Encodes.passes {rs : List (Run UInt8)} {bs : List Block} {flashEnd : UInt32}
    (h : Encodes rs bs) (hsize : ∀ r ∈ rs, r.data.length ≤ uf2MaxPayload)
    (hwin : ∀ r ∈ rs, flashStart.toNat ≤ r.start ∧ r.stop ≤ flashEnd.toNat) :
    ∀ b ∈ bs, b.Passes flashEnd := by
  induction h with
  | nil => simp
  | piece hb _ ih =>
      rw [List.forall_mem_cons] at hsize hwin
      exact List.forall_mem_cons.mpr ⟨hb.passes hsize.1 hwin.1, ih hsize.2 hwin.2⟩
  | skip hb _ ih => exact List.forall_mem_cons.mpr ⟨hb.passes flashEnd, ih hsize hwin⟩

/-! ### Cutting segments -/

/-- A segment together with a way of cutting its bytes into pieces that fit a
block. -/
structure CutSegment where
  addr : UInt32
  pieces : List (List UInt8)
  size : ∀ p ∈ pieces, 1 ≤ p.length ∧ p.length ≤ uf2MaxPayload

namespace CutSegment

/-- The segment that was cut. -/
def segment (c : CutSegment) : Segment := ⟨c.addr, c.pieces.flatten⟩

@[simp] theorem segment_toRun (c : CutSegment) :
    c.segment.toRun = ⟨c.addr.toNat, c.pieces.flatten⟩ := rfl

/-- The pieces, each at its address. -/
def runs (c : CutSegment) : List (Run UInt8) := layOut c.addr.toNat c.pieces

end CutSegment

/-- Segments that fit the flash window, in order and with a gap between
neighbours. -/
structure Encodable (flashEnd : UInt32) (segs : List Segment) : Prop where
  nonempty : segs ≠ []
  data : ∀ s ∈ segs, s.data ≠ []
  window : ∀ s ∈ segs, flashStart.toNat ≤ s.addr.toNat ∧
    s.addr.toNat + s.data.length ≤ flashEnd.toNat
  gap : segs.IsChain fun s t => s.addr.toNat + s.data.length < t.addr.toNat

namespace Encodable

variable {flashEnd : UInt32} {cuts : List CutSegment}

/-- A gap between neighbours is a gap between any two. -/
theorem separated {segs : List Segment} (h : Encodable flashEnd segs) :
    Separated (segs.map Segment.toRun) := by
  let gap : Run UInt8 → Run UInt8 → Prop := fun r q => r.stop < q.start
  have : Trans gap gap gap := ⟨fun h₁ h₂ => (h₁.trans_le (Run.start_le_stop _)).trans h₂⟩
  have hchain : (segs.map Segment.toRun).IsChain gap := by
    rw [List.isChain_map]
    exact h.gap
  exact hchain.pairwise

/-- A segment that carries bytes was cut into at least one piece. -/
theorem pieces_ne_nil (h : Encodable flashEnd (cuts.map CutSegment.segment)) :
    ∀ c ∈ cuts, c.pieces ≠ [] := fun c hc hnil => by
  have hdata := h.data c.segment (List.mem_map_of_mem hc)
  rw [CutSegment.segment, hnil] at hdata
  exact hdata rfl

/-- Coalescing the pieces gives back the segments. -/
theorem coalesce_runs (h : Encodable flashEnd (cuts.map CutSegment.segment)) :
    coalesce (cuts.flatMap CutSegment.runs) =
      some ((cuts.map CutSegment.segment).map Segment.toRun) := by
  have hruns : CutSegment.runs = fun c => layOut c.addr.toNat c.pieces := rfl
  have hsep := h.separated
  rw [List.map_map] at hsep ⊢
  have hco := coalesce_layOut (cuts.map fun c => (c.addr.toNat, c.pieces))
    (by simpa using h.pieces_ne_nil) (by simpa [Function.comp_def] using hsep)
  simpa [List.flatMap_map, Function.comp_def, hruns] using hco

/-- The pieces fit the flash window as the segments do. -/
theorem window_runs (h : Encodable flashEnd (cuts.map CutSegment.segment)) :
    ∀ r ∈ cuts.flatMap CutSegment.runs,
      flashStart.toNat ≤ r.start ∧ r.stop ≤ flashEnd.toNat := by
  intro r hr
  obtain ⟨c, hc, hr⟩ := List.mem_flatMap.mp hr
  obtain ⟨hlo, hhi⟩ := h.window c.segment (List.mem_map_of_mem hc)
  exact ⟨hlo.trans (start_le_of_mem_layOut hr), (stop_le_of_mem_layOut hr).trans hhi⟩

end Encodable

theorem length_le_of_mem_runs {cuts : List CutSegment} {r : Run UInt8}
    (hr : r ∈ cuts.flatMap CutSegment.runs) : r.data.length ≤ uf2MaxPayload := by
  obtain ⟨c, -, hr⟩ := List.mem_flatMap.mp hr
  exact (c.size _ (data_of_mem_layOut hr)).2

/-! ### The round trip -/

/-- Whatever segments a writer starts from, however it cuts them, and whatever
it puts into the fields and blocks that are not for this target: `parse` gives
back the segments. -/
theorem parse_encode (flashEnd : UInt32) (segs : List Segment) (cuts : List CutSegment)
    (bs : List Block) (hsegs : Encodable flashEnd segs)
    (hcut : cuts.map CutSegment.segment = segs)
    (henc : Encodes (cuts.flatMap CutSegment.runs) bs) :
    parse (fileBytes bs) flashEnd = .ok segs := by
  subst hcut
  have hco := hsegs.coalesce_runs
  have hacc := henc.accepted
  have hpass := henc.passes (fun r hr => length_le_of_mem_runs hr) hsegs.window_runs
  have hne : accepted bs ≠ [] := by
    rw [hacc]
    intro hnil
    rw [hnil, coalesce_nil] at hco
    exact hsegs.nonempty (by simpa using (Option.some.inj hco).symm)
  rcases parse_of_passes hpass hne with ⟨-, segs', hp, hrep⟩ | ⟨hno, -⟩
  · rw [hp, hrep.unique (hacc ▸ hco)]
  · exact absurd (coalesce_eq_some_iff.mp ⟨_, hacc ▸ hco⟩) hno

/-- Two segments, the first in two pieces, with a foreign block between them
whose size and address are out of range. -/
theorem parse_encode_example :
    let first : CutSegment := ⟨flashStart, [[1, 2], [3]], by decide⟩
    let second : CutSegment := ⟨flashStart + 8, [[4]], by decide⟩
    let bs : List Block :=
      [.build uf2FlagFamilyIdPresent flashStart rp2040FamilyId [1, 2] (by decide),
        { Block.build uf2FlagNotMainFlash 7 0 [9] (by decide) with payloadSize := 0xffffffff },
        .build uf2FlagFamilyIdPresent (flashStart + 2) rp2040FamilyId [3] (by decide),
        .build uf2FlagFamilyIdPresent (flashStart + 8) rp2040FamilyId [4] (by decide)]
    parse (fileBytes bs) flashEnd = .ok [first.segment, second.segment] := by
  intro first second bs
  refine parse_encode flashEnd _ [first, second] bs ⟨by decide, by decide, by decide, ?_⟩ rfl ?_
  · have hgap : flashStart.toNat + 3 < (flashStart + 8).toNat := by decide
    exact .cons_cons hgap (.singleton _)
  · exact .piece ⟨by decide, by decide, by decide, rfl, rfl, rfl, rfl⟩
      (.skip ⟨by decide, .inl (by decide)⟩
        (.piece ⟨by decide, by decide, by decide, rfl, rfl, rfl, rfl⟩
          (.piece ⟨by decide, by decide, by decide, rfl, rfl, rfl, rfl⟩ .nil)))

end PicotoolRs
