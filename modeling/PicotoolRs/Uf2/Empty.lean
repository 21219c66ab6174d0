import PicotoolRs.Uf2.Errors

/-!
# PicotoolRs.Uf2.Empty

Blocks that declare no payload.

The parser takes a block of payload size zero like any other: it opens a segment
without bytes where it does not touch a payload with bytes, and it is compared
with the blocks before and after it. `EmptiesHarmless` says for which files none
of this shows (`onlyBytesCount_iff`).
-/

namespace PicotoolRs

open Lib Constants

/-! ### Blocks without payload -/

/-- Only payload bytes count in what the parser makes of a file. -/
structure OnlyBytesCount (flashEnd : UInt32) (bytes : List UInt8) : Prop where
  /-- Every segment of a file that parses carries a byte. -/
  segments : ∀ segs, parse bytes flashEnd = .ok segs → ∀ s ∈ segs, s.data ≠ []
  /-- A file of well-formed blocks without a payload byte has no flash data. -/
  nothing : ∀ bs, bs ≠ [] → bytes = fileBytes bs → (∀ b ∈ bs, b.Passes flashEnd) →
    (∀ r ∈ accepted bs, r.data = []) → parse bytes flashEnd = .err .noFlashData
  /-- With and without an accepted block that has no payload, the file yields the
  same segments. -/
  leaves : ∀ pre b post, bytes = fileBytes (pre ++ b :: post) → b.Passes flashEnd → b.isFlash →
    b.payload = [] → ∀ segs, parse bytes flashEnd = .ok segs ↔
      parse (fileBytes (pre ++ post)) flashEnd = .ok segs

/-- Every payload without bytes starts where one with bytes does, in it, or at its
end. -/
def EmptiesTouch (rs : List (Run UInt8)) : Prop :=
  ∀ r ∈ rs, r.data = [] → ∃ q ∈ rs, q.data ≠ [] ∧ q.start ≤ r.start ∧ r.start ≤ q.stop

/-- Blocks without payload do no harm. -/
inductive EmptiesHarmless (flashEnd : UInt32) (bs : List Block) : Prop
  /-- Some block does not pass, with or without them. -/
  | malformed {b : Block} : b ∈ bs → ¬ b.Passes flashEnd → EmptiesHarmless flashEnd bs
  /-- The payloads ascend, and each one without bytes touches one with bytes. -/
  | touch : Ascending (accepted bs) → EmptiesTouch (accepted bs) → EmptiesHarmless flashEnd bs
  /-- The payloads do not ascend, even without any single one of them that has no
  bytes, and there are bytes among them. -/
  | descend {r : Run UInt8} : ¬ Ascending (accepted bs) → r ∈ accepted bs → r.data ≠ [] →
      (∀ pre b post, bs = pre ++ b :: post → b.isFlash → b.payload = [] →
        ¬ Ascending (accepted (pre ++ post))) → EmptiesHarmless flashEnd bs

/-! ### What a file parses to -/

theorem fileBytes_injective {bs bs' : List Block} (h : fileBytes bs = fileBytes bs') :
    bs = bs' := by
  rw [← fileBlocks_fileBytes bs, h, fileBlocks_fileBytes]

/-- A file parses to the segments its payloads coalesce to, if its blocks pass and
there is a payload. -/
theorem parse_eq_ok_iff {flashEnd : UInt32} {bs : List Block} {segs : List Segment} :
    parse (fileBytes bs) flashEnd = .ok segs ↔
      (∀ b ∈ bs, b.Passes flashEnd) ∧ accepted bs ≠ [] ∧
        coalesce (accepted bs) = some (segs.map Segment.toRun) := by
  constructor
  · intro h
    obtain ⟨bs', heq, -, hacc, hrep⟩ := parse_eq_ok h
    obtain rfl := fileBytes_injective heq
    exact ⟨passes_of_parse h, hacc, hrep.coalesced⟩
  · intro h
    obtain ⟨hpass, hacc, hco⟩ := h
    rcases parse_of_passes hpass hacc with ⟨-, segs', hp, hrep⟩ | ⟨hno, -⟩
    · rw [hp, hrep.unique hco]
    · exact absurd (coalesce_eq_some_iff.mp ⟨_, hco⟩) hno

theorem unbroken_of_passes {flashEnd : UInt32} {bs : List Block}
    (h : ∀ b ∈ bs, b.Passes flashEnd) (hasc : Ascending (accepted bs)) : Unbroken flashEnd bs := by
  rw [← scan_ok_iff]
  have hnil : Ascending [] := List.Pairwise.nil
  rcases scan_of_passes h 0 hnil with ⟨-, hscan⟩ | ⟨hno, -⟩
  · simpa using hscan
  · exact absurd (by simpa using hasc) hno

/-! ### Leaving a block out -/

section Leave

variable {pre post : List Block} {b : Block}

theorem accepted_split (hb : b.isFlash) :
    accepted (pre ++ b :: post) = accepted pre ++ b.run :: accepted post := by
  rw [accepted_append, accepted_cons, if_pos hb]

theorem mem_accepted_split (hb : b.isFlash) {r : Run UInt8} :
    r ∈ accepted (pre ++ b :: post) ↔ r = b.run ∨ r ∈ accepted (pre ++ post) := by
  rw [accepted_split hb, accepted_append]
  simp only [List.mem_append, List.mem_cons]
  tauto

theorem Ascending.leave (h : Ascending (accepted (pre ++ b :: post))) :
    Ascending (accepted (pre ++ post)) := by
  refine List.Pairwise.sublist ?_ h
  rw [accepted_append, accepted_append]
  refine (List.Sublist.refl _).append ?_
  rw [accepted_cons]
  split
  · exact List.sublist_cons_self _ _
  · exact List.Sublist.refl _

theorem EmptiesTouch.leave (hb : b.isFlash) (hnil : b.payload = [])
    (h : EmptiesTouch (accepted (pre ++ b :: post))) :
    EmptiesTouch (accepted (pre ++ post)) := by
  intro r hr hr0
  obtain ⟨q, hq, hqne, hlo, hhi⟩ := h r ((mem_accepted_split hb).mpr (.inr hr)) hr0
  rcases (mem_accepted_split hb).mp hq with rfl | hq
  · exact absurd hnil hqne
  · exact ⟨q, hq, hqne, hlo, hhi⟩

/-- A payload without bytes that touches one with bytes can be left out: what the
others coalesce to holds the same bytes, and a separated list of runs with bytes
is determined by them. -/
theorem coalesce_leave (hb : b.isFlash) (hnil : b.payload = [])
    (hasc : Ascending (accepted (pre ++ b :: post)))
    (htouch : EmptiesTouch (accepted (pre ++ b :: post))) :
    coalesce (accepted (pre ++ b :: post)) = coalesce (accepted (pre ++ post)) := by
  obtain ⟨out, hout⟩ := coalesce_eq_some_iff.mpr hasc
  obtain ⟨out', hout'⟩ := coalesce_eq_some_iff.mpr hasc.leave
  have hco := coalesce_coalesced hout
  have hco' := coalesce_coalesced hout'
  have hempty : ∀ a v, ¬ b.run.Holds a v := by
    intro a v hv
    have := hv.2
    simp [Block.run, hnil] at this
  have hholds : ∀ a v, (∃ s ∈ out, s.Holds a v) ↔ ∃ s ∈ out', s.Holds a v := by
    intro a v
    rw [hco.holds, hco'.holds]
    simp only [mem_accepted_split hb, or_and_right, exists_or, exists_eq_left, hempty, false_or]
  have heq : out = out' := hco.separated.eq_of_holds hco'.separated
    (hco.data_ne_nil_iff.mpr htouch) (hco'.data_ne_nil_iff.mpr (htouch.leave hb hnil)) hholds
  rw [hout, hout', heq]

end Leave

/-! ### When only bytes count -/

theorem OnlyBytesCount.harmless {flashEnd : UInt32} {bs : List Block}
    (h : OnlyBytesCount flashEnd (fileBytes bs)) : EmptiesHarmless flashEnd bs := by
  by_cases hpass : ∀ b ∈ bs, b.Passes flashEnd
  swap
  · simp only [not_forall] at hpass
    obtain ⟨b, hb, hno⟩ := hpass
    exact .malformed hb hno
  by_cases hacc : accepted bs = []
  · exact .touch (by simp [hacc, Ascending]) (by simp [hacc, EmptiesTouch])
  have hne : bs ≠ [] := fun hnil => hacc (by rw [hnil, accepted_nil])
  rcases parse_of_passes hpass hacc with ⟨hasc, segs, hp, hrep⟩ | ⟨hno, a, hp⟩
  · refine .touch hasc (hrep.toCoalesced.data_ne_nil_iff.mp fun r hr => ?_)
    obtain ⟨s, hs, rfl⟩ := List.mem_map.mp hr
    exact h.segments segs hp s hs
  · obtain ⟨r, hr, hrne⟩ : ∃ r ∈ accepted bs, r.data ≠ [] := by
      by_contra hall
      simp only [not_exists, not_and, not_not] at hall
      have hnothing := h.nothing bs hne rfl hpass hall
      simp [hp] at hnothing
    refine .descend hno hr hrne fun pre b post hsplit hb hnil hasc => ?_
    subst hsplit
    have hpass' : ∀ c ∈ pre ++ post, c.Passes flashEnd := by
      intro c hc
      rcases List.mem_append.mp hc with hc | hc
      · exact hpass c (by simp [hc])
      · exact hpass c (by simp [hc])
    -- there is a payload with bytes, and it is not that of the block left out
    have hacc' : accepted (pre ++ post) ≠ [] := by
      rcases (mem_accepted_split hb).mp hr with rfl | hr'
      · exact absurd hnil hrne
      · exact List.ne_nil_of_mem hr'
    rcases parse_of_passes hpass' hacc' with ⟨-, segs, hp', -⟩ | ⟨hno', -⟩
    · have hsegs := (h.leaves pre b post rfl (hpass b (by simp)) hb hnil segs).mpr hp'
      simp [hp] at hsegs
    · exact hno' hasc

/-- Payloads without bytes that touch one with bytes are none, if there are no
bytes. -/
theorem EmptiesTouch.eq_nil {rs : List (Run UInt8)} (h : EmptiesTouch rs)
    (hall : ∀ r ∈ rs, r.data = []) : rs = [] := by
  by_contra hne
  obtain ⟨r, rs', rfl⟩ := List.exists_cons_of_ne_nil hne
  obtain ⟨q, hq, hqne, -⟩ := h r List.mem_cons_self (hall r List.mem_cons_self)
  exact hqne (hall q hq)

namespace EmptiesHarmless

variable {flashEnd : UInt32} {bs : List Block}

/-- Every segment carries a byte. -/
theorem segments (h : EmptiesHarmless flashEnd bs) {segs : List Segment}
    (hp : parse (fileBytes bs) flashEnd = .ok segs) : ∀ s ∈ segs, s.data ≠ [] := by
  intro s hs
  obtain ⟨hpass, -, hco⟩ := parse_eq_ok_iff.mp hp
  cases h with
  | malformed hb hno => exact absurd (hpass _ hb) hno
  | touch _ htouch =>
      exact (coalesce_coalesced hco).data_ne_nil_iff.mpr htouch s.toRun (List.mem_map_of_mem hs)
  | descend hno _ _ _ => exact absurd (coalesce_eq_some_iff.mp ⟨_, hco⟩) hno

/-- Without a payload byte there is no flash data. -/
theorem nothing (h : EmptiesHarmless flashEnd bs) (hne : bs ≠ [])
    (hpass : ∀ b ∈ bs, b.Passes flashEnd) (hall : ∀ r ∈ accepted bs, r.data = []) :
    parse (fileBytes bs) flashEnd = .err .noFlashData := by
  cases h with
  | malformed hb hno => exact absurd (hpass _ hb) hno
  | touch hasc htouch =>
      rcases parse_of_unbroken hne (unbroken_of_passes hpass hasc) with ⟨-, hp⟩ | ⟨hacc, -⟩
      · exact hp
      · exact absurd (htouch.eq_nil hall) hacc
  | descend _ hr hrne _ => exact absurd (hall _ hr) hrne

/-- Leaving out a block without payload changes nothing. -/
theorem leaves {pre post : List Block} {b : Block}
    (h : EmptiesHarmless flashEnd (pre ++ b :: post)) (hb : b.Passes flashEnd) (hflash : b.isFlash)
    (hnil : b.payload = []) (segs : List Segment) :
    parse (fileBytes (pre ++ b :: post)) flashEnd = .ok segs ↔
      parse (fileBytes (pre ++ post)) flashEnd = .ok segs := by
  rw [parse_eq_ok_iff, parse_eq_ok_iff]
  have hpass : (∀ c ∈ pre ++ b :: post, c.Passes flashEnd) ↔
      ∀ c ∈ pre ++ post, c.Passes flashEnd := by
    simp only [List.forall_mem_append, List.forall_mem_cons, hb, true_and]
  cases h with
  | malformed hc hno =>
      exact iff_of_false (fun h => hno (h.1 _ hc)) fun h => hno (hpass.mpr h.1 _ hc)
  | touch hasc htouch =>
      have hmem : b.run ∈ accepted (pre ++ b :: post) := (mem_accepted_split hflash).mpr (.inl rfl)
      have hacc : accepted (pre ++ b :: post) ≠ [] := List.ne_nil_of_mem hmem
      have hacc' : accepted (pre ++ post) ≠ [] := by
        -- the payload with bytes that the block touches is still there
        obtain ⟨q, hq, hqne, -⟩ := htouch b.run hmem hnil
        rcases (mem_accepted_split hflash).mp hq with rfl | hq'
        · exact absurd hnil hqne
        · exact List.ne_nil_of_mem hq'
      rw [hpass, coalesce_leave hflash hnil hasc htouch]
      simp only [hacc, hacc', ne_eq, not_false_eq_true, true_and]
  | descend hno _ _ hleave =>
      have hno' := hleave pre b post rfl hflash hnil
      exact iff_of_false (fun h => hno (coalesce_eq_some_iff.mp ⟨_, h.2.2⟩)) fun h =>
        hno' (coalesce_eq_some_iff.mp ⟨_, h.2.2⟩)

theorem onlyBytesCount (h : EmptiesHarmless flashEnd bs) :
    OnlyBytesCount flashEnd (fileBytes bs) := by
  constructor
  case segments => exact fun segs hp => h.segments hp
  case nothing =>
    intro bs' hne heq hpass hall
    obtain rfl := fileBytes_injective heq
    exact h.nothing hne hpass hall
  case leaves =>
    intro pre b post heq hb hflash hnil segs
    obtain rfl := fileBytes_injective heq
    exact h.leaves hb hflash hnil segs

end EmptiesHarmless

/-- Only payload bytes count in a file exactly if its blocks without payload do no
harm. -/
theorem onlyBytesCount_iff (flashEnd : UInt32) (bytes : List UInt8) :
    OnlyBytesCount flashEnd bytes ↔
      ∀ bs, bytes = fileBytes bs → EmptiesHarmless flashEnd bs := by
  constructor
  · intro h bs heq
    subst heq
    exact h.harmless
  · intro h
    constructor
    · intro segs hp
      obtain ⟨bs, rfl, -⟩ := parse_eq_ok hp
      exact (h bs rfl).onlyBytesCount.segments segs hp
    · intro bs hne heq
      subst heq
      exact (h bs rfl).onlyBytesCount.nothing bs hne rfl
    · intro pre b post heq
      subst heq
      exact (h _ rfl).onlyBytesCount.leaves pre b post rfl

theorem length_nil_le : ([] : List UInt8).length ≤ uf2MaxPayload := by decide

/-- One block for this target that declares no payload. -/
def payloadlessBlocks : List Block :=
  [.build uf2FlagFamilyIdPresent (flashStart + 256) rp2040FamilyId [] length_nil_le]

/-- The file parses, to a segment without bytes. -/
theorem payloadlessBlocks_not_onlyBytesCount :
    parse (fileBytes payloadlessBlocks) flashEnd = .ok [⟨flashStart + 256, []⟩] ∧
      ¬ OnlyBytesCount flashEnd (fileBytes payloadlessBlocks) := by
  have hp : parse (fileBytes payloadlessBlocks) flashEnd = .ok [⟨flashStart + 256, []⟩] := by
    decide +kernel
  exact ⟨hp, fun h => h.segments _ hp _ (List.mem_singleton.mpr rfl) rfl⟩

end PicotoolRs
