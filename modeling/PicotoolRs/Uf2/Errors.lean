import PicotoolRs.Uf2.Sound

/-!
# PicotoolRs.Uf2.Errors

Which error `parse` reports.

`Block.Breaks` lists the rules of the format and what each of them is reported
as, and a file is `Unbroken` if none of its blocks breaks one. The parser
reports the first block that does (`parse_firstViolation`): the rules of a
block come in the order of the source, and a rule of an earlier block comes
before any rule of a later one.
-/

namespace PicotoolRs

open Lib Constants

/-! ### Rules -/

/-- Block number `i` breaks a rule, after the payloads `earlier` were accepted,
and this is the error that says so. -/
inductive Block.Breaks (flashEnd : UInt32) (i : Nat) (earlier : List (Run UInt8)) (b : Block) :
    Uf2Error → Prop
  /-- A magic word is wrong. -/
  | badMagic : ¬ b.HasMagic → b.Breaks flashEnd i earlier (.badMagic i)
  /-- The block is for the main flash and carries no family id. -/
  | missingFamilyId : b.HasMagic → b.flags &&& uf2FlagNotMainFlash = 0 →
      b.flags &&& uf2FlagFamilyIdPresent = 0 → b.Breaks flashEnd i earlier (.missingFamilyId i)
  /-- The block is for this target and declares more than a block can carry. -/
  | payloadTooLarge : b.HasMagic → b.isFlash → uf2MaxPayload < b.payloadSize.toNat →
      b.Breaks flashEnd i earlier (.payloadTooLarge i b.payloadSize)
  /-- The block is for this target and leaves the flash window. -/
  | addressOutOfRange : b.HasMagic → b.isFlash → b.payloadSize.toNat ≤ uf2MaxPayload →
      b.targetAddr.toNat < flashStart.toNat ∨
        flashEnd.toNat < b.targetAddr.toNat + b.payloadSize.toNat →
      b.Breaks flashEnd i earlier (.addressOutOfRange i b.targetAddr b.payloadSize flashEnd)
  /-- The block starts below the end of a payload accepted before. -/
  | overlap : b.HasMagic → b.isFlash → b.payloadSize.toNat ≤ uf2MaxPayload →
      b.InWindow flashEnd → (∃ r ∈ earlier, b.targetAddr.toNat < r.stop) →
      b.Breaks flashEnd i earlier (.overlap b.targetAddr)

/-- No block breaks a rule. -/
def Unbroken (flashEnd : UInt32) (bs : List Block) : Prop :=
  ∀ pre b post, bs = pre ++ b :: post →
    ∀ e, ¬ b.Breaks flashEnd pre.length (accepted pre) e

/-- The first block that breaks a rule is reported as `e`. -/
def FirstViolation (flashEnd : UInt32) (bs : List Block) (e : Uf2Error) : Prop :=
  ∃ pre b post, bs = pre ++ b :: post ∧ Unbroken flashEnd pre ∧
    b.Breaks flashEnd pre.length (accepted pre) e

/-- Of the blocks for the main flash that carry a family id, those for this
target are told by the id. -/
theorem Block.isFlash_iff_family {b : Block} (hmain : b.flags &&& uf2FlagNotMainFlash = 0)
    (htag : b.flags &&& uf2FlagFamilyIdPresent ≠ 0) : b.isFlash ↔ b.familyId = rp2040FamilyId := by
  rw [isFlash_iff]
  exact ⟨fun h => h.2.2, fun h => ⟨hmain, htag, h⟩⟩

theorem Block.not_inWindow_iff {flashEnd : UInt32} {b : Block} :
    ¬ b.InWindow flashEnd ↔ b.targetAddr.toNat < flashStart.toNat ∨
      flashEnd.toNat < b.targetAddr.toNat + b.payloadSize.toNat := by
  unfold InWindow
  omega

/-- A rule that is broken is a fault, if the ones before it are kept. -/
theorem Block.Breaks.fault {flashEnd : UInt32} {i : Nat} {earlier : List (Run UInt8)} {b : Block}
    {e : Uf2Error} (h : b.Breaks flashEnd i earlier e) : b.fault flashEnd i earlier = some e := by
  unfold Block.fault verdict
  cases h with
  | badMagic hmagic => simp [hmagic]
  | missingFamilyId hmagic hmain htag => simp [hmagic, hmain, htag]
  | payloadTooLarge hmagic hflash hsize =>
      obtain ⟨hmain, htag, hfam⟩ := isFlash_iff.mp hflash
      simp [hmagic, hmain, htag, hfam, hsize]
  | addressOutOfRange hmagic hflash hsize hwin =>
      obtain ⟨hmain, htag, hfam⟩ := isFlash_iff.mp hflash
      simp [hmagic, hmain, htag, hfam, Nat.not_lt.mpr hsize, not_inWindow_iff.mpr hwin]
  | overlap hmagic hflash hsize hwin hover =>
      obtain ⟨hmain, htag, hfam⟩ := isFlash_iff.mp hflash
      simp only [hmagic, hmain, htag, hfam, Nat.not_lt.mpr hsize, hwin, hover, not_true, ne_eq,
        if_true, if_false]

/-- A block is rejected for the first of the rules on single blocks that it
breaks. -/
theorem Block.breaks_of_reject {flashEnd : UInt32} {i : Nat} {earlier : List (Run UInt8)}
    {b : Block} {e : Uf2Error} (h : b.verdict flashEnd i = .reject e) :
    b.Breaks flashEnd i earlier e := by
  unfold verdict at h
  -- the checks in the order of the code
  split at h
  · next hmagic =>
    obtain rfl := Verdict.reject.inj h
    exact .badMagic hmagic
  next hmagic =>
  have hmagic := not_not.mp hmagic
  split at h
  · simp at h
  next hmain =>
  have hmain := not_not.mp hmain
  split at h
  · next htag =>
    obtain rfl := Verdict.reject.inj h
    exact .missingFamilyId hmagic hmain htag
  next htag =>
  split at h
  · simp at h
  next hfam =>
  have hflash := (isFlash_iff_family hmain htag).mpr (not_not.mp hfam)
  split at h
  · next hsize =>
    obtain rfl := Verdict.reject.inj h
    exact .payloadTooLarge hmagic hflash hsize
  next hsize =>
  split at h
  · next hwin =>
    obtain rfl := Verdict.reject.inj h
    exact .addressOutOfRange hmagic hflash (Nat.not_lt.mp hsize) (not_inWindow_iff.mp hwin)
  · simp at h

/-- The rules are those of `fault`, which checks them in order. -/
theorem Block.breaks_iff_fault {flashEnd : UInt32} {i : Nat} {earlier : List (Run UInt8)}
    {b : Block} {e : Uf2Error} :
    b.Breaks flashEnd i earlier e ↔ b.fault flashEnd i earlier = some e := by
  refine ⟨Breaks.fault, fun h => ?_⟩
  cases hv : b.verdict flashEnd i with
  | skip => simp [Block.fault, hv] at h
  | accept =>
      -- only the overlap is left
      have hpass : b.Passes flashEnd := passes_of_verdict (i := i) (by simp [hv])
      have hflash : b.isFlash := by
        by_contra hf
        simp [hpass.verdict_eq, hf] at hv
      simp only [Block.fault, hv, Option.ite_none_right_eq_some] at h
      obtain ⟨hover, he⟩ := h
      obtain rfl := Option.some.inj he
      exact .overlap hpass.magic hflash (hpass.size hflash) (hpass.window hflash) hover
  | reject e' =>
      obtain rfl : e' = e := by simpa [Block.fault, hv] using h
      exact breaks_of_reject hv

theorem Block.fault_eq_none_iff {flashEnd : UInt32} {i : Nat} {earlier : List (Run UInt8)}
    {b : Block} :
    b.fault flashEnd i earlier = none ↔ ∀ e, ¬ b.Breaks flashEnd i earlier e := by
  simp only [breaks_iff_fault]
  exact Option.eq_none_iff_forall_ne_some

/-- A block that breaks no rule passes the checks on single blocks. -/
theorem Block.passes_of_fault {flashEnd : UInt32} {i : Nat} {earlier : List (Run UInt8)}
    {b : Block} (h : b.fault flashEnd i earlier = none) : b.Passes flashEnd := by
  refine passes_of_verdict (i := i) fun e hv => ?_
  simp [fault, hv] at h

/-! ### The first violation -/

/-- Walking over blocks in two parts. -/
theorem scan_append {flashEnd : UInt32} {i : Nat} {rs : List (Run UInt8)} {pre : List Block}
    (h : scan flashEnd i rs pre = .ok (rs ++ accepted pre)) (bs : List Block) :
    scan flashEnd i rs (pre ++ bs) =
      scan flashEnd (i + pre.length) (rs ++ accepted pre) bs := by
  induction pre generalizing i rs with
  | nil => simp
  | cons b pre ih =>
      rw [List.cons_append, scan]
      rw [scan] at h
      cases hf : b.fault flashEnd i rs with
      | some e => simp [hf] at h
      | none =>
          simp only [hf] at h ⊢
          have hacc : (rs ++ accepted [b]) ++ accepted pre = rs ++ accepted (b :: pre) := by
            rw [List.append_assoc, ← accepted_append, List.singleton_append]
          rw [← hacc] at h
          rw [ih h, hacc, List.length_cons, Nat.add_right_comm, Nat.add_assoc]

/-- Walking over blocks gets as far as the first fault. -/
theorem scan_eq_error {flashEnd : UInt32} {i : Nat} {rs : List (Run UInt8)} {bs : List Block}
    {e : Uf2Error} (h : scan flashEnd i rs bs = .error e) :
    ∃ pre b post, bs = pre ++ b :: post ∧
      scan flashEnd i rs pre = .ok (rs ++ accepted pre) ∧
      b.fault flashEnd (i + pre.length) (rs ++ accepted pre) = some e := by
  induction bs generalizing i rs with
  | nil => simp [scan] at h
  | cons b bs ih =>
      rw [scan] at h
      cases hf : b.fault flashEnd i rs with
      | some e' =>
          obtain rfl : e' = e := by simpa [hf] using h
          exact ⟨[], b, bs, rfl, by simp [scan], by simpa using hf⟩
      | none =>
          simp only [hf] at h
          obtain ⟨pre, c, post, rfl, hok, hc⟩ := ih h
          rw [List.append_assoc, ← accepted_append, List.singleton_append] at hok hc
          refine ⟨b :: pre, c, post, rfl, ?_, ?_⟩
          · rw [scan, hf]
            exact hok
          · rw [List.length_cons, ← Nat.add_assoc, Nat.add_right_comm]
            exact hc

theorem scan_ok_iff {flashEnd : UInt32} {bs : List Block} :
    scan flashEnd 0 [] bs = .ok (accepted bs) ↔ Unbroken flashEnd bs := by
  constructor
  · intro h pre b post hsplit
    subst hsplit
    rw [← Block.fault_eq_none_iff]
    cases hpre : scan flashEnd 0 [] pre with
    | error e =>
        -- a fault in the first part is a fault of the whole
        obtain ⟨pre', c, post', rfl, hok, hc⟩ := scan_eq_error hpre
        rw [List.append_assoc, scan_append hok, List.cons_append, scan, hc] at h
        simp at h
    | ok rs =>
        obtain rfl := scan_eq_ok hpre
        rw [scan_append hpre, scan] at h
        simp only [Nat.zero_add, List.nil_append] at h
        cases hf : b.fault flashEnd pre.length (accepted pre) with
        | none => rfl
        | some e => simp [hf] at h
  · intro h
    cases hscan : scan flashEnd 0 [] bs with
    | ok rs => rw [scan_eq_ok hscan, List.nil_append]
    | error e =>
        obtain ⟨pre, b, post, rfl, -, hb⟩ := scan_eq_error hscan
        simp only [Nat.zero_add, List.nil_append] at hb
        exact absurd (Block.breaks_iff_fault.mpr hb) (h pre b post rfl e)

theorem scan_error_iff {flashEnd : UInt32} {bs : List Block} {e : Uf2Error} :
    scan flashEnd 0 [] bs = .error e ↔ FirstViolation flashEnd bs e := by
  constructor
  · intro h
    obtain ⟨pre, b, post, rfl, hok, hb⟩ := scan_eq_error h
    simp only [Nat.zero_add, List.nil_append] at hok hb
    exact ⟨pre, b, post, rfl, scan_ok_iff.mp hok, Block.breaks_iff_fault.mpr hb⟩
  · intro h
    obtain ⟨pre, b, post, rfl, hpre, hb⟩ := h
    have hok := scan_ok_iff.mpr hpre
    rw [← List.nil_append (accepted pre)] at hok
    rw [scan_append hok, scan]
    simp [Block.breaks_iff_fault.mp hb]

/-- A file either has a first violation or is unbroken. -/
theorem unbroken_or_firstViolation (flashEnd : UInt32) (bs : List Block) :
    Unbroken flashEnd bs ∨ ∃ e, FirstViolation flashEnd bs e := by
  cases hscan : scan flashEnd 0 [] bs with
  | error e => exact .inr ⟨e, scan_error_iff.mp hscan⟩
  | ok rs =>
      obtain rfl := scan_eq_ok hscan
      exact .inl (scan_ok_iff.mp hscan)

/-- The blocks of a file that parses pass the checks on single blocks. -/
theorem passes_of_parse {bs : List Block} {flashEnd : UInt32} {segs : List Segment}
    (h : parse (fileBytes bs) flashEnd = .ok segs) : ∀ b ∈ bs, b.Passes flashEnd := by
  obtain ⟨bs', heq, hscan, -, -⟩ := parse_eq_ok h
  obtain rfl : bs = bs' := by
    rw [← fileBlocks_fileBytes bs, heq, fileBlocks_fileBytes]
  intro b hb
  obtain ⟨pre, post, rfl⟩ := List.append_of_mem hb
  exact Block.passes_of_fault (Block.fault_eq_none_iff.mpr (scan_ok_iff.mp hscan pre b post rfl))

/-! ### What the parser reports -/

/-- The outcome of `parse` is decided by the first violation. -/
structure ReportsFirstViolation (flashEnd : UInt32) (bytes : List UInt8) : Prop where
  /-- No slice is out of range and no addition overflows. -/
  no_panic : parse bytes flashEnd ≠ .panic
  empty : parse bytes flashEnd = .err .empty ↔ bytes = []
  truncated : ∀ len, parse bytes flashEnd = .err (.truncated len) ↔
    bytes ≠ [] ∧ ¬ uf2BlockSize ∣ bytes.length ∧ len = bytes.length
  /-- In a file of whole blocks, the first violation is reported. -/
  violation : bytes ≠ [] → uf2BlockSize ∣ bytes.length → ∀ e, e ≠ .noFlashData →
    (parse bytes flashEnd = .err e ↔ FirstViolation flashEnd (fileBlocks bytes) e)
  /-- Without a violation, a file of whole blocks is rejected exactly if no block
  is accepted. -/
  noFlashData : bytes ≠ [] → uf2BlockSize ∣ bytes.length →
    (parse bytes flashEnd = .err .noFlashData ↔
      Unbroken flashEnd (fileBlocks bytes) ∧ accepted (fileBlocks bytes) = [])
  ok : bytes ≠ [] → uf2BlockSize ∣ bytes.length →
    ((∃ segs, parse bytes flashEnd = .ok segs) ↔
      Unbroken flashEnd (fileBlocks bytes) ∧ accepted (fileBlocks bytes) ≠ [])

theorem parse_of_firstViolation {flashEnd : UInt32} {bs : List Block} {e : Uf2Error}
    (h : FirstViolation flashEnd bs e) : parse (fileBytes bs) flashEnd = .err e := by
  have hne : bs ≠ [] := by
    obtain ⟨pre, b, post, rfl, -⟩ := h
    simp
  have hscan := scan_error_iff.mpr h
  rcases parse_fileBytes flashEnd hne with ⟨e', hs, hp⟩ | ⟨hs, -⟩
  · obtain rfl : e' = e := by simpa [hs] using hscan
    exact hp
  · simp [hs] at hscan

theorem parse_of_unbroken {flashEnd : UInt32} {bs : List Block} (hne : bs ≠ [])
    (h : Unbroken flashEnd bs) :
    (accepted bs = [] ∧ parse (fileBytes bs) flashEnd = .err .noFlashData) ∨
      (accepted bs ≠ [] ∧ ∃ segs, parse (fileBytes bs) flashEnd = .ok segs ∧
        Represents flashEnd segs (accepted bs)) := by
  have hscan := scan_ok_iff.mpr h
  rcases parse_fileBytes flashEnd hne with ⟨e, hs, -⟩ | ⟨-, hcase⟩
  · simp [hs] at hscan
  · exact hcase

/-- No rule is reported as an error about the file as a whole. -/
theorem Block.Breaks.names_block {flashEnd : UInt32} {i : Nat} {earlier : List (Run UInt8)}
    {b : Block} {e : Uf2Error} (h : b.Breaks flashEnd i earlier e) :
    e ≠ .empty ∧ (∀ len, e ≠ .truncated len) ∧ e ≠ .noFlashData := by
  cases h <;> simp

theorem FirstViolation.not_unbroken {flashEnd : UInt32} {bs : List Block} {e : Uf2Error}
    (h : FirstViolation flashEnd bs e) : ¬ Unbroken flashEnd bs := by
  intro hall
  obtain ⟨pre, b, post, hsplit, -, hb⟩ := h
  exact hall pre b post hsplit e hb

theorem FirstViolation.names_block {flashEnd : UInt32} {bs : List Block} {e : Uf2Error}
    (h : FirstViolation flashEnd bs e) :
    e ≠ .empty ∧ (∀ len, e ≠ .truncated len) ∧ e ≠ .noFlashData := by
  obtain ⟨_, _, _, -, -, hb⟩ := h
  exact hb.names_block

/-- A file that is not whole blocks. -/
theorem reports_truncated {flashEnd : UInt32} {bytes : List UInt8} (hne : bytes ≠ [])
    (hdvd : ¬ uf2BlockSize ∣ bytes.length) : ReportsFirstViolation flashEnd bytes := by
  have hp : parse bytes flashEnd = .err (.truncated bytes.length) := by
    rw [parse, if_neg (by simpa using hne), if_pos]
    exact fun hmod => hdvd (Nat.dvd_of_mod_eq_zero hmod)
  constructor
  case no_panic => simp [hp]
  case empty => simp [hp, hne]
  case truncated =>
    intro len
    rw [hp]
    simp [hne, hdvd, eq_comm]
  case violation => exact fun _ h => absurd h hdvd
  case noFlashData => exact fun _ h => absurd h hdvd
  case ok => exact fun _ h => absurd h hdvd

/-- A file of blocks that break no rule. -/
theorem reports_unbroken {flashEnd : UInt32} {bs : List Block} (hne : bs ≠ [])
    (hbytes : fileBytes bs ≠ []) (hdvd : uf2BlockSize ∣ (fileBytes bs).length)
    (hbs : Unbroken flashEnd bs) : ReportsFirstViolation flashEnd (fileBytes bs) := by
  have hno : ∀ e, ¬ FirstViolation flashEnd bs e := fun e h => h.not_unbroken hbs
  have hpanic := parse_ne_panic (fileBytes bs) flashEnd
  rcases parse_of_unbroken hne hbs with ⟨hacc, hp⟩ | ⟨hacc, segs, hp, -⟩
  · constructor
    case no_panic => exact hpanic
    case empty => simp [hp, hbytes]
    case truncated => simp [hp, hdvd]
    case violation => exact fun _ _ e he => by simp [hp, hno, he.symm]
    case noFlashData => simp [hp, hbs, hacc]
    case ok => simp [hp, hacc]
  · constructor
    case no_panic => exact hpanic
    case empty => simp [hp, hbytes]
    case truncated => simp [hp, hdvd]
    case violation => simp [hp, hno]
    case noFlashData => simp [hp, hacc]
    case ok => simp [hp, hbs, hacc]

/-- A file of blocks with a violation. -/
theorem reports_broken {flashEnd : UInt32} {bs : List Block} {e : Uf2Error}
    (hbytes : fileBytes bs ≠ []) (hdvd : uf2BlockSize ∣ (fileBytes bs).length)
    (hbs : FirstViolation flashEnd bs e) : ReportsFirstViolation flashEnd (fileBytes bs) := by
  have hp := parse_of_firstViolation hbs
  have hbroken := hbs.not_unbroken
  obtain ⟨he₁, he₂, he₃⟩ := hbs.names_block
  constructor
  case no_panic => exact parse_ne_panic (fileBytes bs) flashEnd
  case empty => simp [hp, hbytes, he₁]
  case truncated => simp [hp, hdvd, he₂]
  case violation =>
    -- the walk finds one error, so there is one first violation
    intro _ _ e' _
    rw [fileBlocks_fileBytes, ← scan_error_iff, scan_error_iff.mpr hbs, hp]
    simp
  case noFlashData => simp [hp, hbroken, he₃]
  case ok => simp [hp, hbroken]

/-- `parse` reports exactly the first violation. -/
theorem parse_firstViolation (flashEnd : UInt32) (bytes : List UInt8) :
    ReportsFirstViolation flashEnd bytes := by
  by_cases hempty : bytes = []
  · subst hempty
    have hp : parse [] flashEnd = .err .empty := rfl
    exact ⟨by simp [hp], by simp [hp], by simp [hp], by simp, by simp, by simp⟩
  by_cases hdvd : uf2BlockSize ∣ bytes.length
  · have h0 : ¬ bytes.isEmpty = true := by simpa using hempty
    have h1 : ¬ bytes.length % uf2BlockSize ≠ 0 := not_not.mpr (Nat.mod_eq_zero_of_dvd hdvd)
    obtain ⟨bs, hne, rfl⟩ := exists_blocks h0 h1
    rcases unbroken_or_firstViolation flashEnd bs with hbs | ⟨e, hbs⟩
    · exact reports_unbroken hne hempty hdvd hbs
    · exact reports_broken hempty hdvd hbs
  · exact reports_truncated hempty hdvd

end PicotoolRs
