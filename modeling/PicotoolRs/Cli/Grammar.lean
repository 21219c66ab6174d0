import PicotoolRs.Cli

/-!
# PicotoolRs.Cli.Grammar

The grammar of the command line as a relation.

`Item` lists what may stand before a bare `--`, each with the words it is
written in and what it sets; `Reads` is a sequence of items, with a file after a
bare `--` if there is one. `readArgs` decides it (`readArgs_iff_reads`), so a
fact about every accepted command line is an induction over a derivation, and
needs no look at the reader.
-/

namespace PicotoolRs.Cli

/-- One option, or the file, in the words it is written in, and what it sets. -/
inductive Item : List Str → (Draft → Option Draft) → Prop
  | verify : Item ["--verify".toList] Draft.setVerify
  | anyDevice : Item ["--any-device".toList] Draft.setAnyDevice
  | device {value : Str} : isValue value = true →
      Item ["--device".toList, value] fun p => p.setDevice value
  | deviceAttached (value : Str) :
      Item ["--device=".toList ++ value] fun p => p.setDevice value
  | fd {value : Str} : isValue value = true → Item ["--fd".toList, value] fun p => p.setFd value
  | fdAttached (value : Str) : Item ["--fd=".toList ++ value] fun p => p.setFd value
  | file {arg : Str} : arg.head? ≠ some '-' ∨ arg = ['-'] → Item [arg] fun p => p.setFile arg

/-- Reading `args` turns the first draft into the second. -/
inductive Reads : Draft → List Str → Draft → Prop
  | done {p : Draft} : Reads p [] p
  | dashes {p q : Draft} {rest : List Str} :
      readPositional p rest = some q → Reads p ("--".toList :: rest) q
  | item {p p' q : Draft} {words rest : List Str} {set : Draft → Option Draft} :
      Item words set → set p = some p' → Reads p' rest q → Reads p (words ++ rest) q

/-! ### What is set -/

namespace Draft

variable {p p' : Draft} {value : Str}

theorem setVerify_eq_some :
    p.setVerify = some p' ↔ p.verify = false ∧ p' = { p with verify := true } := by
  rw [setVerify, Option.ite_none_left_eq_some, Option.some_inj, Bool.not_eq_true,
    eq_comm (a := p')]

theorem setAnyDevice_eq_some :
    p.setAnyDevice = some p' ↔ p.anyDevice = false ∧ p' = { p with anyDevice := true } := by
  rw [setAnyDevice, Option.ite_none_left_eq_some, Option.some_inj, Bool.not_eq_true,
    eq_comm (a := p')]

theorem setDevice_eq_some :
    p.setDevice value = some p' ↔ p.device = none ∧ p' = { p with device := some value } := by
  rw [setDevice, Option.ite_none_left_eq_some, Option.some_inj, Bool.not_eq_true,
    Option.isSome_eq_false_iff, Option.isNone_iff_eq_none, eq_comm (a := p')]

theorem setFd_eq_some :
    p.setFd value = some p' ↔
      p.fd = none ∧ ∃ n, parseI32 value = some n ∧ p' = { p with fd := some n } := by
  rw [setFd, Option.ite_none_left_eq_some, Option.map_eq_some_iff, Bool.not_eq_true,
    Option.isSome_eq_false_iff, Option.isNone_iff_eq_none]
  simp only [eq_comm (a := p')]

theorem setFile_eq_some :
    p.setFile value = some p' ↔ p.file = none ∧ p' = { p with file := some value } := by
  rw [setFile, Option.ite_none_left_eq_some, Option.some_inj, Bool.not_eq_true,
    Option.isSome_eq_false_iff, Option.isNone_iff_eq_none, eq_comm (a := p')]

end Draft

/-- At most one file follows a bare `--`. -/
theorem readPositional_eq_some {p q : Draft} {args : List Str} :
    readPositional p args = some q ↔
      (args = [] ∧ q = p) ∨ ∃ file, args = [file] ∧ p.setFile file = some q := by
  match args with
  | [] => simp [readPositional, eq_comm]
  | [file] => simp [readPositional]
  | file :: file' :: rest =>
      have hnone : readPositional p (file :: file' :: rest) = none := by
        rw [readPositional, List.foldlM_cons]
        cases hset : p.setFile file with
        | none => rfl
        | some p' =>
            obtain ⟨-, rfl⟩ := Draft.setFile_eq_some.mp hset
            rfl
      simp [hnone]

/-! ### The words -/

theorem afterPrefix_append (pre value : Str) : afterPrefix pre (pre ++ value) = some value := by
  have hpre : pre.isPrefixOf (pre ++ value) = true :=
    List.isPrefixOf_iff_prefix.mpr (List.prefix_append pre value)
  rw [afterPrefix, if_pos hpre, List.drop_left]

/-- What follows a prefix, put back. -/
theorem append_of_afterPrefix {pre arg value : Str} (h : afterPrefix pre arg = some value) :
    arg = pre ++ value := by
  rw [afterPrefix, Option.ite_none_right_eq_some] at h
  obtain ⟨hpre, hvalue⟩ := h
  obtain ⟨rest, rfl⟩ := List.isPrefixOf_iff_prefix.mp hpre
  rw [List.drop_left] at hvalue
  rw [Option.some.inj hvalue]

@[simp] theorem classify_deviceAttached (value : Str) :
    classify ("--device=".toList ++ value) = .device (some value) := by
  have hafter := afterPrefix_append "--device=".toList value
  simp only [classify, hafter]
  simp

@[simp] theorem classify_fdAttached (value : Str) :
    classify ("--fd=".toList ++ value) = .fd (some value) := by
  have hafter := afterPrefix_append "--fd=".toList value
  have hdevice : afterPrefix "--device=".toList ("--fd=".toList ++ value) = none := by
    simp [afterPrefix, List.isPrefixOf]
  simp only [classify, hafter, hdevice]
  simp

/-- A word that does not start with a dash, or is just one, is a file. -/
theorem classify_file {arg : Str} (h : arg.head? ≠ some '-' ∨ arg = ['-']) :
    classify arg = .positional := by
  have hne : ∀ s : Str, s.head? = some '-' → s ≠ ['-'] → arg ≠ s := by
    intro s hhead hs heq
    subst heq
    exact h.elim (fun h => h hhead) hs
  have hafter : ∀ pre : Str, pre.head? = some '-' → 1 < pre.length →
      afterPrefix pre arg = none := by
    intro pre hhead hlen
    cases hvalue : afterPrefix pre arg with
    | none => rfl
    | some value =>
        exfalso
        have harg := append_of_afterPrefix hvalue
        obtain ⟨c, d, cs, rfl⟩ : ∃ c d cs, pre = c :: d :: cs := by
          match pre, hlen with
          | c :: d :: cs, _ => exact ⟨c, d, cs, rfl⟩
        refine hne arg ?_ ?_ rfl
        · simpa [harg] using hhead
        · simp [harg]
  rw [classify, if_neg (hne _ rfl (by decide)), if_neg (hne _ rfl (by decide)),
    if_neg (hne _ rfl (by decide)), if_neg (hne _ rfl (by decide)), if_neg (hne _ rfl (by decide)),
    hafter _ rfl (by decide), hafter _ rfl (by decide)]
  exact if_neg fun hoption => h.elim (fun h => h hoption.1) hoption.2

/-- The token is written as the word `arg`. -/
def Token.Writes (arg : Str) : Token → Prop
  | .dashes => arg = "--".toList
  | .verify => arg = "--verify".toList
  | .anyDevice => arg = "--any-device".toList
  | .device none => arg = "--device".toList
  | .device (some value) => arg = "--device=".toList ++ value
  | .fd none => arg = "--fd".toList
  | .fd (some value) => arg = "--fd=".toList ++ value
  | .unknown => True
  | .positional => arg.head? ≠ some '-' ∨ arg = ['-']

/-- A word is read as what it is written as. -/
theorem writes_of_classify {arg : Str} {token : Token} (h : classify arg = token) :
    token.Writes arg := by
  subst h
  unfold classify
  by_cases hdashes : arg = "--".toList
  · rw [if_pos hdashes]
    exact hdashes
  rw [if_neg hdashes]
  by_cases hverify : arg = "--verify".toList
  · rw [if_pos hverify]
    exact hverify
  rw [if_neg hverify]
  by_cases hany : arg = "--any-device".toList
  · rw [if_pos hany]
    exact hany
  rw [if_neg hany]
  by_cases hdevice : arg = "--device".toList
  · rw [if_pos hdevice]
    exact hdevice
  rw [if_neg hdevice]
  by_cases hfd : arg = "--fd".toList
  · rw [if_pos hfd]
    exact hfd
  rw [if_neg hfd]
  cases hdeviceValue : afterPrefix "--device=".toList arg with
  | some value => exact append_of_afterPrefix hdeviceValue
  | none =>
      cases hfdValue : afterPrefix "--fd=".toList arg with
      | some value => exact append_of_afterPrefix hfdValue
      | none =>
          by_cases hoption : arg.head? = some '-' ∧ arg ≠ ['-']
          · rw [if_pos hoption]
            trivial
          · rw [if_neg hoption]
            rw [not_and_or, not_not] at hoption
            exact hoption

/-! ### Reading -/

/-- An item is read in one step. -/
theorem Item.readArgs {words : List Str} {set : Draft → Option Draft} (h : Item words set)
    (p : Draft) (rest : List Str) :
    readArgs p (words ++ rest) = (set p).bind fun p => Cli.readArgs p rest := by
  cases h with
  | verify => rfl
  | anyDevice => rfl
  | device hvalue =>
      have hclass : classify "--device".toList = .device none := by decide
      rw [List.cons_append, readArgs.eq_def]
      simp only [hclass, hvalue, if_true, List.cons_append, List.nil_append]
  | deviceAttached value =>
      rw [List.cons_append, readArgs.eq_def]
      simp only [classify_deviceAttached, List.nil_append]
  | fd hvalue =>
      have hclass : classify "--fd".toList = .fd none := by decide
      rw [List.cons_append, readArgs.eq_def]
      simp only [hclass, hvalue, if_true, List.cons_append, List.nil_append]
  | fdAttached value =>
      rw [List.cons_append, readArgs.eq_def]
      simp only [classify_fdAttached, List.nil_append]
  | file harg =>
      rw [List.cons_append, readArgs.eq_def]
      simp only [classify_file harg, List.nil_append]

/-- A derivation is what the reader does. -/
theorem Reads.readArgs {p q : Draft} {args : List Str} (h : Reads p args q) :
    Cli.readArgs p args = some q := by
  induction h with
  | done => rfl
  | dashes hrest => exact hrest
  | item hitem hset hreads ih => rw [hitem.readArgs, hset, Option.bind_some, ih]

/-- An item that the reader gets past is the start of a derivation. -/
theorem Item.reads {words rest : List Str} {set : Draft → Option Draft} (hitem : Item words set)
    {p q : Draft} (h : Cli.readArgs p (words ++ rest) = some q)
    (ih : ∀ p, Cli.readArgs p rest = some q → Reads p rest q) : Reads p (words ++ rest) q := by
  rw [hitem.readArgs] at h
  obtain ⟨p', hset, hread⟩ := Option.bind_eq_some_iff.mp h
  exact .item hitem hset (ih p' hread)

/-- The reader finds a derivation. By induction on its calls, each of which is for
one item. -/
theorem reads_of_readArgs {p q : Draft} {args : List Str} (h : readArgs p args = some q) :
    Reads p args q := by
  induction p, args using readArgs.induct with
  | case1 p =>
      rw [← Option.some.inj h]
      exact .done
  | case2 p arg rest hclass =>
      obtain rfl : arg = "--".toList := writes_of_classify hclass
      exact .dashes h
  | case3 p arg rest hclass ih =>
      obtain rfl : arg = "--verify".toList := writes_of_classify hclass
      exact Item.verify.reads h ih
  | case4 p arg rest hclass ih =>
      obtain rfl : arg = "--any-device".toList := writes_of_classify hclass
      exact Item.anyDevice.reads h ih
  | case5 p arg rest value hclass ih =>
      obtain rfl : arg = "--device=".toList ++ value := writes_of_classify hclass
      exact (Item.deviceAttached value).reads h ih
  | case6 p arg rest value hclass ih =>
      obtain rfl : arg = "--fd=".toList ++ value := writes_of_classify hclass
      exact (Item.fdAttached value).reads h ih
  | case8 p arg hclass value rest hvalue ih =>
      obtain rfl : arg = "--device".toList := writes_of_classify hclass
      exact (Item.device hvalue).reads h ih
  | case11 p arg hclass value rest hvalue ih =>
      obtain rfl : arg = "--fd".toList := writes_of_classify hclass
      exact (Item.fd hvalue).reads h ih
  | case14 p arg rest hclass ih =>
      exact (Item.file (writes_of_classify hclass)).reads h ih
  -- the others are refused: a value that is missing or is none, and an unknown option
  | case7 p arg hclass => simp [readArgs.eq_def, hclass] at h
  | case9 p arg hclass value rest hvalue => simp [readArgs.eq_def, hclass, hvalue] at h
  | case10 p arg hclass => simp [readArgs.eq_def, hclass] at h
  | case12 p arg hclass value rest hvalue => simp [readArgs.eq_def, hclass, hvalue] at h
  | case13 p arg rest hclass => simp [readArgs.eq_def, hclass] at h

theorem readArgs_iff_reads {p q : Draft} {args : List Str} :
    readArgs p args = some q ↔ Reads p args q :=
  ⟨reads_of_readArgs, Reads.readArgs⟩

/-- The draft of a complete command line. -/
def draftOf (a : LoadArgs) : Draft :=
  ⟨some a.file, a.verify, a.anyDevice, a.device, a.fd⟩

/-- An accepted command line is the subcommand and what reads as its arguments. -/
theorem parse_eq_some_iff {args : List Str} {a : LoadArgs} :
    parse args = some a ↔
      ∃ rest, args = "load".toList :: rest ∧ Reads .empty rest (draftOf a) := by
  constructor
  · intro h
    cases args with
    | nil => simp [parse] at h
    | cons command rest =>
        rw [parse, Option.ite_none_right_eq_some] at h
        obtain ⟨rfl, h⟩ := h
        obtain ⟨q, hread, h⟩ := Option.bind_eq_some_iff.mp h
        obtain ⟨file, hfile, h⟩ := Option.bind_eq_some_iff.mp h
        have hdraft : draftOf a = q := by
          rw [← Option.some.inj h, draftOf, ← hfile]
        rw [hdraft]
        exact ⟨rest, rfl, readArgs_iff_reads.mp hread⟩
  · intro h
    obtain ⟨rest, rfl, h⟩ := h
    rw [parse, if_pos rfl, readArgs_iff_reads.mpr h]
    rfl

end PicotoolRs.Cli
