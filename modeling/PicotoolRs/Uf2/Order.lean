import PicotoolRs.Uf2.Sound

/-!
# PicotoolRs.Uf2.Order

When a file is rejected for an overlap, and what the order of its blocks has to
do with it.

`append_block` looks at the last segment only, so it takes a payload that starts
below the end of an earlier one for an overlap, whether or not the two share an
address. The files for which `Uf2Error.overlap` means what it says are those in
which two payloads do share an address or all payloads ascend
(`overlap_exact_iff`). That every order of the blocks gives the same segments is
true of even fewer: apart from files with a shared address, it takes payloads of
which none starts below the end of any other.
-/

namespace PicotoolRs

open Lib Constants

/-! ### Disjoint payloads -/

/-- No two accepted payloads share an address. -/
def DisjointRuns (rs : List (Run UInt8)) : Prop :=
  rs.Pairwise fun r q => ∀ a, ¬ (r.Covers a ∧ q.Covers a)

/-- Every accepted payload starts at or above the end of every other one,
earlier or later. -/
def MutuallyAscending (rs : List (Run UInt8)) : Prop :=
  rs.Pairwise fun r q => r.stop ≤ q.start ∧ q.stop ≤ r.start

theorem Ascending.disjoint {rs : List (Run UInt8)} (h : Ascending rs) : DisjointRuns rs :=
  h.imp fun hle _ ha => absurd (ha.1.2.trans_le hle) (Nat.not_lt.mpr ha.2.1)

/-- Payloads that ascend in one order and in the reverse one. -/
theorem mutuallyAscending_iff {rs : List (Run UInt8)} :
    MutuallyAscending rs ↔ Ascending rs ∧ Ascending rs.reverse := by
  rw [MutuallyAscending, Ascending, Ascending, List.pairwise_reverse]
  exact ⟨fun h => ⟨h.imp And.left, h.imp And.right⟩, fun h => h.1.and h.2⟩

theorem MutuallyAscending.perm {rs rs' : List (Run UInt8)} (h : MutuallyAscending rs)
    (hp : rs.Perm rs') : MutuallyAscending rs' :=
  (hp.pairwise_iff fun hrq => hrq.symm).mp h

/-- Such payloads are all empty and at one address, so reordering does not
change the list. -/
theorem MutuallyAscending.eq_of_perm {rs rs' : List (Run UInt8)} (h : MutuallyAscending rs)
    (hp : rs.Perm rs') : rs = rs' := by
  refine hp.eq_of_pairwise (fun r q _ _ hrq _ => ?_) h (h.perm hp)
  have hr := r.start_le_stop
  have hq := q.start_le_stop
  have hrd : r.data = [] := Run.stop_eq_start_iff.mp (by omega)
  have hqd : q.data = [] := Run.stop_eq_start_iff.mp (by omega)
  have hstart : r.start = q.start := by omega
  cases r
  cases q
  rw [Run.mk.injEq]
  exact ⟨hstart, hrd.trans hqd.symm⟩

/-! ### Reordering blocks -/

theorem accepted_perm {bs bs' : List Block} (h : bs.Perm bs') :
    (accepted bs).Perm (accepted bs') :=
  (h.filter _).map _

theorem accepted_reverse (bs : List Block) : accepted bs.reverse = (accepted bs).reverse := by
  rw [accepted, List.filter_reverse, List.map_reverse, accepted]

/-- A file with an accepted block whose blocks all pass the checks on single
blocks. -/
structure PassingFile (flashEnd : UInt32) (bs : List Block) : Prop where
  passes : ∀ b ∈ bs, b.Passes flashEnd
  some_accepted : accepted bs ≠ []

theorem PassingFile.perm {flashEnd : UInt32} {bs bs' : List Block} (h : PassingFile flashEnd bs)
    (hp : bs.Perm bs') : PassingFile flashEnd bs' where
  passes := fun b hb => h.passes b (hp.mem_iff.mpr hb)
  some_accepted := fun hnil =>
    h.some_accepted (List.Perm.nil_eq (hnil ▸ accepted_perm hp.symm)).symm

/-- `parse` reports an overlap. -/
def RejectsOverlap (flashEnd : UInt32) (bs : List Block) : Prop :=
  ∃ a, parse (fileBytes bs) flashEnd = .err (.overlap a)

/-- Every order of the blocks parses to the same segments. -/
def OrderIrrelevant (flashEnd : UInt32) (bs : List Block) : Prop :=
  ∃ segs, ∀ bs', bs.Perm bs' → parse (fileBytes bs') flashEnd = .ok segs

theorem PassingFile.rejectsOverlap_iff {flashEnd : UInt32} {bs : List Block}
    (h : PassingFile flashEnd bs) : RejectsOverlap flashEnd bs ↔ ¬ Ascending (accepted bs) := by
  rcases parse_of_passes h.passes h.some_accepted with ⟨hasc, segs, hp, -⟩ | ⟨hno, a, hp⟩
  · simp [RejectsOverlap, hp, hasc]
  · simpa [RejectsOverlap, hp] using hno

theorem PassingFile.orderIrrelevant_iff {flashEnd : UInt32} {bs : List Block}
    (h : PassingFile flashEnd bs) :
    OrderIrrelevant flashEnd bs ↔ MutuallyAscending (accepted bs) := by
  constructor
  · intro h
    obtain ⟨segs, hall⟩ := h
    have hasc : ∀ bs', bs.Perm bs' → Ascending (accepted bs') := fun bs' hp => by
      by_contra hno
      obtain ⟨a, hrej⟩ := (h.perm hp).rejectsOverlap_iff.mpr hno
      simp [hall bs' hp] at hrej
    rw [mutuallyAscending_iff, ← accepted_reverse]
    exact ⟨hasc bs (.refl _), hasc bs.reverse (List.reverse_perm _).symm⟩
  · intro hmut
    have hparse : ∀ bs', bs.Perm bs' → ∃ segs, parse (fileBytes bs') flashEnd = .ok segs ∧
        Represents flashEnd segs (accepted bs) := fun bs' hp => by
      have hp' := h.perm hp
      have hacc : accepted bs = accepted bs' := hmut.eq_of_perm (accepted_perm hp)
      rcases parse_of_passes hp'.passes hp'.some_accepted with ⟨-, hok⟩ | ⟨hno, -⟩
      · rwa [hacc]
      · exact absurd (mutuallyAscending_iff.mp (hacc ▸ hmut)).1 hno
    obtain ⟨segs, -, hrep⟩ := hparse bs (.refl _)
    refine ⟨segs, fun bs' hp => ?_⟩
    obtain ⟨segs', hp', hrep'⟩ := hparse bs' hp
    rw [hp', hrep.unique hrep'.coalesced]

/-! ### When the error means what it says -/

/-- Of a file whose blocks all pass:

* an overlap is reported exactly when two accepted payloads share an address,
  if and only if two do share one or the payloads ascend in file order;
* disjoint payloads give the same segments in every order of the blocks, if and
  only if two payloads share an address after all, or each starts at or above
  the end of every other one. -/
theorem overlap_exact_iff (flashEnd : UInt32) (bs : List Block) (h : PassingFile flashEnd bs) :
    ((RejectsOverlap flashEnd bs ↔ ¬ DisjointRuns (accepted bs)) ↔
      (¬ DisjointRuns (accepted bs) ∨ Ascending (accepted bs))) ∧
    ((DisjointRuns (accepted bs) → OrderIrrelevant flashEnd bs) ↔
      (¬ DisjointRuns (accepted bs) ∨ MutuallyAscending (accepted bs))) := by
  rw [h.rejectsOverlap_iff, h.orderIrrelevant_iff]
  have hdis : Ascending (accepted bs) → DisjointRuns (accepted bs) := Ascending.disjoint
  exact ⟨by tauto, by tauto⟩

/-- Two payloads of four bytes, the upper one first. -/
def descendingBlocks : List Block :=
  [.build uf2FlagFamilyIdPresent (flashStart + 256) rp2040FamilyId [1, 2, 3, 4] (by decide),
    .build uf2FlagFamilyIdPresent flashStart rp2040FamilyId [5, 6, 7, 8] (by decide)]

theorem descendingBlocks_passing : PassingFile flashEnd descendingBlocks :=
  ⟨by decide, by decide⟩

theorem descendingBlocks_disjoint : DisjointRuns (accepted descendingBlocks) := by
  have hasc : Ascending (accepted descendingBlocks).reverse := by decide
  exact List.pairwise_reverse.mp (hasc.disjoint.imp fun h a ha => h a ha.symm)

/-- They are rejected for an overlap, though they share no address. -/
theorem overlap_without_shared_address :
    PassingFile flashEnd descendingBlocks ∧
      ¬ (RejectsOverlap flashEnd descendingBlocks ↔ ¬ DisjointRuns (accepted descendingBlocks)) :=
  ⟨descendingBlocks_passing, fun h =>
    h.mp ⟨flashStart, by decide +kernel⟩ descendingBlocks_disjoint⟩

theorem overlap_exact_iff_descendingBlocks :
    ((RejectsOverlap flashEnd descendingBlocks ↔ ¬ DisjointRuns (accepted descendingBlocks)) ↔
      (¬ DisjointRuns (accepted descendingBlocks) ∨ Ascending (accepted descendingBlocks))) ∧
    ((DisjointRuns (accepted descendingBlocks) → OrderIrrelevant flashEnd descendingBlocks) ↔
      (¬ DisjointRuns (accepted descendingBlocks) ∨
        MutuallyAscending (accepted descendingBlocks))) :=
  overlap_exact_iff flashEnd descendingBlocks descendingBlocks_passing

end PicotoolRs
