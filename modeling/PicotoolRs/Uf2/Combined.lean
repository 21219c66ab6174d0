import PicotoolRs.Uf2.Errors
import PicotoolRs.Uf2.RoundTrip

/-!
# PicotoolRs.Uf2.Combined

Combined files: blocks for other targets among those for this one.

A UF2 file may hold images for several targets, block by block in any order, and
the parser picks its own. It makes of such a file what it makes of its own blocks
alone, down to the error, in which only the number of the block is another
(`parse_combined`).
-/

namespace PicotoolRs

open Lib Constants

instance (b : Block) : Decidable b.Skippable :=
  decidable_of_iff
    (b.HasMagic ∧ (b.flags &&& uf2FlagNotMainFlash ≠ 0 ∨
      (b.flags &&& uf2FlagFamilyIdPresent ≠ 0 ∧ b.familyId ≠ rp2040FamilyId)))
    ⟨fun ⟨hmagic, hother⟩ => ⟨hmagic, hother⟩, fun h => ⟨h.magic, h.other⟩⟩

/-- The blocks that are not for another target. -/
def own (bs : List Block) : List Block := bs.filter fun b => ¬ b.Skippable

/-- The number that block `n` of the own blocks has among all blocks. -/
def numberIn : List Block → Nat → Nat
  | [], n => n
  | b :: bs, n =>
      if b.Skippable then numberIn bs n + 1
      else if n = 0 then 0
      else numberIn bs (n - 1) + 1

/-- The error, with the number of the block changed. -/
def Uf2Error.renumber (f : Nat → Nat) : Uf2Error → Uf2Error
  | .badMagic n => .badMagic (f n)
  | .payloadTooLarge n size => .payloadTooLarge (f n) size
  | .missingFamilyId n => .missingFamilyId (f n)
  | .addressOutOfRange n addr size flashEnd => .addressOutOfRange (f n) addr size flashEnd
  | .empty => .empty
  | .truncated len => .truncated len
  | .overlap addr => .overlap addr
  | .noFlashData => .noFlashData

section Combined

variable {flashEnd : UInt32} {rs : List (Run UInt8)} {b : Block} {bs : List Block} {f : Nat → Nat}

theorem own_cons (b : Block) (bs : List Block) :
    own (b :: bs) = if b.Skippable then own bs else b :: own bs := by
  by_cases h : b.Skippable <;> simp [own, h]

/-! ### Blocks -/

theorem Block.Skippable.fault (h : b.Skippable) (flashEnd : UInt32) (i : Nat)
    (rs : List (Run UInt8)) : b.fault flashEnd i rs = none := by
  rw [Block.fault, (h.passes flashEnd).verdict_eq, if_neg h.not_isFlash]

theorem accepted_own (bs : List Block) : accepted (own bs) = accepted bs := by
  induction bs with
  | nil => rfl
  | cons b bs ih =>
      rw [own_cons, accepted_cons]
      split
      · next h => rw [if_neg h.not_isFlash, ih]
      · rw [accepted_cons, ih]

/-- The number of a block is of no account to its checks, and stands in the error. -/
theorem Block.fault_renumber (b : Block) (flashEnd : UInt32) (f : Nat → Nat) (i : Nat)
    (rs : List (Run UInt8)) :
    b.fault flashEnd (f i) rs = (b.fault flashEnd i rs).map (Uf2Error.renumber f) := by
  unfold Block.fault verdict
  split_ifs <;> simp [Uf2Error.renumber]

/-! ### Walking over blocks -/

/-- The numbers below those of the blocks are not in the error. -/
theorem scan_renumber_congr {g : Nat → Nat} {k : Nat} (h : ∀ n, k ≤ n → f n = g n) :
    (scan flashEnd k rs bs).mapError (Uf2Error.renumber f) =
      (scan flashEnd k rs bs).mapError (Uf2Error.renumber g) := by
  cases hscan : scan flashEnd k rs bs with
  | ok _ => rfl
  | error e =>
      obtain ⟨pre, c, post, -, -, hc⟩ := scan_eq_error hscan
      have hf := c.fault_renumber flashEnd f (k + pre.length) (rs ++ accepted pre)
      have hg := c.fault_renumber flashEnd g (k + pre.length) (rs ++ accepted pre)
      rw [hc, h _ (Nat.le_add_right _ _)] at hf
      rw [hc, hf] at hg
      exact congrArg Except.error (Option.some.inj hg)

/-- Walking over all blocks, numbered from `i` on, is walking over the own ones,
numbered from `k` on. By induction on the blocks. -/
theorem scan_own (i k : Nat) :
    scan flashEnd i rs bs = (scan flashEnd k rs (own bs)).mapError
      (Uf2Error.renumber fun n => i + numberIn bs (n - k)) := by
  induction bs generalizing i k rs with
  | nil => rfl
  | cons b bs ih =>
      rw [own_cons]
      by_cases h : b.Skippable
      · have hacc : accepted [b] = [] := by simp [accepted_cons, h.not_isFlash]
        rw [if_pos h, scan, h.fault, hacc, List.append_nil, ih (i + 1) k]
        refine scan_renumber_congr fun n _ => ?_
        rw [numberIn, if_pos h]
        omega
      · rw [if_neg h, scan, scan]
        have hfirst := b.fault_renumber flashEnd (fun n => i + numberIn (b :: bs) (n - k)) k rs
        have hi : i + numberIn (b :: bs) (k - k) = i := by
          rw [Nat.sub_self, numberIn, if_neg h, if_pos rfl, Nat.add_zero]
        rw [hi] at hfirst
        rw [hfirst]
        cases b.fault flashEnd k rs with
        | some e => rfl
        | none =>
            rw [Option.map_none, ih (i + 1) (k + 1)]
            refine scan_renumber_congr fun n hn => ?_
            rw [numberIn, if_neg h, if_neg (by omega), Nat.sub_sub]
            omega

/-! ### Files -/

/-- If walking over the blocks of one file gives what it gives for another, but for
errors, so does parsing. -/
theorem parse_of_scan {bs' : List Block} {g : Uf2Error → Uf2Error} (hne : bs ≠ []) (hne' : bs' ≠ [])
    (hacc : accepted bs' = accepted bs) (hg : g .noFlashData = .noFlashData)
    (hscan : scan flashEnd 0 [] bs = (scan flashEnd 0 [] bs').mapError g) :
    parse (fileBytes bs) flashEnd = (parse (fileBytes bs') flashEnd).mapErr g := by
  rcases parse_fileBytes flashEnd hne with ⟨e, hs, hp⟩ | ⟨hs, hcase⟩ <;>
    rcases parse_fileBytes flashEnd hne' with ⟨e', hs', hp'⟩ | ⟨hs', hcase'⟩ <;>
    rw [hs, hs'] at hscan
  · obtain rfl := Except.error.inj hscan
    rw [hp, hp']
    rfl
  · cases hscan
  · cases hscan
  · rw [hacc] at hcase'
    rcases hcase with ⟨hnil, hp⟩ | ⟨hsome, segs, hp, hrep⟩
    · rcases hcase' with ⟨-, hp'⟩ | ⟨hsome', -⟩
      · rw [hp, hp', Outcome.mapErr_err, hg]
      · exact absurd hnil hsome'
    · rcases hcase' with ⟨hnil', -⟩ | ⟨-, segs', hp', hrep'⟩
      · exact absurd hnil' hsome
      · rw [hp, hp', Outcome.mapErr_ok, hrep.unique hrep'.coalesced]

/-- The parser makes of a file what it makes of the blocks that are not for another
target, with the blocks numbered as they are in the file. -/
theorem parse_combined (flashEnd : UInt32) (bs : List Block) (hne : bs ≠ []) :
    parse (fileBytes bs) flashEnd =
      if own bs = [] then .err .noFlashData
      else (parse (fileBytes (own bs)) flashEnd).mapErr (Uf2Error.renumber (numberIn bs)) := by
  have hscan : scan flashEnd 0 [] bs =
      (scan flashEnd 0 [] (own bs)).mapError (Uf2Error.renumber (numberIn bs)) := by
    simpa only [Nat.zero_add, Nat.sub_zero] using scan_own 0 0
  split
  · next hown =>
    have hnone : accepted bs = [] := by rw [← accepted_own, hown, accepted_nil]
    rw [hown] at hscan
    rcases parse_fileBytes flashEnd hne with ⟨e, herr, -⟩ | ⟨-, ⟨-, hp⟩ | ⟨hsome, -⟩⟩
    · cases hscan.symm.trans herr
    · exact hp
    · exact absurd hnone hsome
  · next hown => exact parse_of_scan hne hown (accepted_own bs) rfl hscan

end Combined

/-- A block of another family before one that leaves the flash window, and one that
is not for flash after it. -/
theorem parse_combined_outside :
    let outside := Block.build uf2FlagFamilyIdPresent flashEnd rp2040FamilyId [1] (by decide)
    let bs := [Block.build uf2FlagFamilyIdPresent flashStart 0 [9] (by decide), outside,
      Block.build uf2FlagNotMainFlash flashStart rp2040FamilyId [7] (by decide)]
    own bs = [outside] ∧ parse (fileBytes bs) flashEnd =
      .err (.addressOutOfRange 1 flashEnd 1 flashEnd) := by
  intro outside bs
  have hown : own bs = [outside] := by decide +kernel
  have hparse : parse (fileBytes [outside]) flashEnd =
      .err (.addressOutOfRange 0 flashEnd 1 flashEnd) := by decide +kernel
  refine ⟨hown, ?_⟩
  rw [parse_combined flashEnd bs (List.cons_ne_nil _ _), hown, if_neg (List.cons_ne_nil _ _),
    hparse]
  decide

end PicotoolRs
