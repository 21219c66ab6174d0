import PicotoolRs.Cli.Grammar
import PicotoolRs.Reexec

/-!
# PicotoolRs.Reexec.Strip

What dropping `--device` does to an argument list, and to what the list says.

The filter looks at words only: it drops a `--device` and the word after it
wherever they stand (`stripDeviceArg_eq_kept`). On a list that the grammar
accepts these are the words of the option (`Item.strip`), up to a bare `--`;
after it the same word is the name of a file (`parse_stripDeviceArg_iff`).
-/

namespace PicotoolRs

/-! ### Dropping `--device` -/

/-- What is kept of the arguments, with or without a value to skip first. -/
def stripFrom (skip : Bool) (args : List Str) : List Str := (args.foldl stripStep ([], skip)).1

/-- The argument is `--device`, or `--device` with its value attached. -/
def IsDeviceOption (arg : Str) : Prop :=
  arg = "--device".toList ∨ "--device=".toList.isPrefixOf arg = true

theorem stripStep_append (out : List Str) (skip : Bool) (arg : Str) :
    stripStep (out, skip) arg =
      (out ++ (stripStep ([], skip) arg).1, (stripStep ([], skip) arg).2) := by
  unfold stripStep
  generalize "--device".toList = device
  generalize "--device=".toList = attached
  cases skip with
  | true => simp
  | false =>
      by_cases hdevice : arg = device
      · simp [hdevice]
      · by_cases hattached : attached.isPrefixOf arg = true
        · simp [hdevice, hattached]
        · simp [hdevice, hattached]

theorem foldl_stripStep (out : List Str) (skip : Bool) (args : List Str) :
    (args.foldl stripStep (out, skip)).1 = out ++ stripFrom skip args := by
  induction args generalizing out skip with
  | nil => simp [stripFrom]
  | cons arg args ih =>
      rw [stripFrom, List.foldl_cons, List.foldl_cons, stripStep_append, ih,
        stripStep_append [] skip arg, ih, List.nil_append, List.append_assoc]

theorem stripFrom_cons (skip : Bool) (arg : Str) (args : List Str) :
    stripFrom skip (arg :: args) =
      (stripStep ([], skip) arg).1 ++ stripFrom (stripStep ([], skip) arg).2 args := by
  rw [stripFrom, List.foldl_cons, ← foldl_stripStep]

@[simp] theorem stripFrom_nil (skip : Bool) : stripFrom skip [] = [] := rfl

/-- A value is skipped. -/
@[simp] theorem stripFrom_true_cons (arg : Str) (args : List Str) :
    stripFrom true (arg :: args) = stripFrom false args := by
  rw [stripFrom_cons]
  rfl

/-- `--device` is dropped, and a value is to skip. -/
theorem stripFrom_device {arg : Str} (h : arg = "--device".toList) (args : List Str) :
    stripFrom false (arg :: args) = stripFrom true args := by
  have hstep : stripStep ([], false) arg = ([], true) := if_pos h
  rw [stripFrom_cons, hstep, List.nil_append]

/-- `--device=..` is dropped. -/
theorem stripFrom_attached {arg : Str} (hdevice : arg ≠ "--device".toList)
    (h : "--device=".toList.isPrefixOf arg = true) (args : List Str) :
    stripFrom false (arg :: args) = stripFrom false args := by
  have hstep : stripStep ([], false) arg = ([], false) :=
    (if_neg hdevice).trans (if_neg (not_not.mpr h))
  rw [stripFrom_cons, hstep, List.nil_append]

/-- Everything else is kept. -/
theorem stripFrom_kept {arg : Str} (h : ¬ IsDeviceOption arg) (args : List Str) :
    stripFrom false (arg :: args) = arg :: stripFrom false args := by
  rw [IsDeviceOption, not_or] at h
  have hstep : stripStep ([], false) arg = ([arg], false) := (if_neg h.1).trans (if_pos h.2)
  rw [stripFrom_cons, hstep, List.singleton_append]

theorem stripDeviceArg_eq (args : List Str) : stripDeviceArg args = stripFrom false args := rfl

/-! ### The words that are dropped -/

instance (arg : Str) : Decidable (IsDeviceOption arg) :=
  inferInstanceAs (Decidable (_ ∨ _))

/-- The argument at this position is the value of the `--device` right before
it, which is not a value itself. -/
def Consumed (args : List Str) : Nat → Prop
  | 0 => False
  | i + 1 => args[i]? = some "--device".toList ∧ ¬ Consumed args i

instance decidableConsumed (args : List Str) : (i : Nat) → Decidable (Consumed args i)
  | 0 => inferInstanceAs (Decidable False)
  | i + 1 =>
      have := decidableConsumed args i
      inferInstanceAs (Decidable (_ ∧ ¬ Consumed args i))

/-- The arguments at the positions that hold neither a `--device` nor its value. -/
def keptArgs (args : List Str) : List Str :=
  (args.zipIdx.filter fun x => ¬ (IsDeviceOption x.1 ∨ Consumed args x.2)).map Prod.fst

/-- After the arguments `pre`, the flag says whether a value is due. -/
theorem stripFrom_eq_kept (pre args : List Str) :
    stripFrom (decide (Consumed (pre ++ args) pre.length)) args =
      ((args.zipIdx pre.length).filter
        fun x => ¬ (IsDeviceOption x.1 ∨ Consumed (pre ++ args) x.2)).map Prod.fst := by
  induction args generalizing pre with
  | nil => rfl
  | cons arg args ih =>
      have ih := ih (pre ++ [arg])
      rw [List.append_assoc, List.singleton_append, List.length_append, List.length_singleton] at ih
      have hnext : Consumed (pre ++ arg :: args) (pre.length + 1) ↔
          arg = "--device".toList ∧ ¬ Consumed (pre ++ arg :: args) pre.length := by
        rw [Consumed, List.getElem?_append_right (Nat.le_refl _), Nat.sub_self]
        simp
      rw [List.zipIdx_cons]
      by_cases hskip : Consumed (pre ++ arg :: args) pre.length
      · -- the value of an option: nothing is due after it
        have hdone : ¬ Consumed (pre ++ arg :: args) (pre.length + 1) := by
          rw [hnext]
          exact fun h => h.2 hskip
        rw [List.filter_cons_of_neg (by simp [hskip]), ← ih, decide_eq_true hskip,
          decide_eq_false hdone, stripFrom_true_cons]
      · rw [decide_eq_false hskip]
        by_cases hdevice : arg = "--device".toList
        · have hdropped : IsDeviceOption arg := .inl hdevice
          have hdue : Consumed (pre ++ arg :: args) (pre.length + 1) := hnext.mpr ⟨hdevice, hskip⟩
          rw [List.filter_cons_of_neg (by simp [hdropped]), ← ih, decide_eq_true hdue,
            stripFrom_device hdevice]
        · have hdone : ¬ Consumed (pre ++ arg :: args) (pre.length + 1) := by
            rw [hnext]
            exact fun h => hdevice h.1
          rw [decide_eq_false hdone] at ih
          by_cases hattached : "--device=".toList.isPrefixOf arg = true
          · have hdropped : IsDeviceOption arg := .inr hattached
            rw [List.filter_cons_of_neg (by simp [hdropped]), ← ih,
              stripFrom_attached hdevice hattached]
          · have hkept : ¬ IsDeviceOption arg := fun h => h.elim hdevice hattached
            rw [List.filter_cons_of_pos (by simp [hkept, hskip]), List.map_cons, ← ih,
              stripFrom_kept hkept]

theorem stripDeviceArg_eq_kept (args : List Str) : stripDeviceArg args = keptArgs args := by
  have h := stripFrom_eq_kept [] args
  rw [List.nil_append] at h
  exact h

/-- No option `--device` is left. -/
theorem not_device_of_mem_strip {args : List Str} {arg : Str} (h : arg ∈ stripDeviceArg args) :
    ¬ IsDeviceOption arg := by
  rw [stripDeviceArg_eq_kept, keptArgs] at h
  obtain ⟨x, hx, rfl⟩ := List.mem_map.mp h
  have hkept := (List.mem_filter.mp hx).2
  rw [decide_eq_true_iff, not_or] at hkept
  exact hkept.1

/-- A list without the option is left as it is. -/
theorem stripDeviceArg_of_clean {args : List Str} (h : ∀ arg ∈ args, ¬ IsDeviceOption arg) :
    stripDeviceArg args = args := by
  induction args with
  | nil => rfl
  | cons arg args ih =>
      rw [List.forall_mem_cons] at h
      rw [stripDeviceArg_eq, stripFrom_kept h.1, ← stripDeviceArg_eq, ih h.2]

theorem stripDeviceArg_sublist (args : List Str) : (stripDeviceArg args).Sublist args := by
  have hsub := (List.filter_sublist (p := fun x => decide ¬ (IsDeviceOption x.1 ∨
    Consumed args x.2)) (l := args.zipIdx)).map Prod.fst
  rw [List.zipIdx_map_fst] at hsub
  rwa [stripDeviceArg_eq_kept, keptArgs]

/-- The command line of a load through `termux-usb`. -/
def loadThroughTermux : List Str :=
  ["load".toList, "fw.uf2".toList, "--device".toList, "/dev/bus/usb/001/002".toList]

/-! ### What the words say -/

namespace Cli

/-- The draft without a device. -/
def Draft.noDevice (p : Draft) : Draft := { p with device := none }

theorem not_isDeviceOption_value {value : Str} (h : isValue value = true) :
    ¬ IsDeviceOption value := by
  have hhead : value.head? ≠ some '-' := by simpa [isValue] using h
  rintro (rfl | hattached)
  · exact hhead rfl
  · obtain ⟨rest, rfl⟩ := List.isPrefixOf_iff_prefix.mp hattached
    exact hhead rfl

theorem not_isDeviceOption_file {arg : Str} (h : arg.head? ≠ some '-' ∨ arg = ['-']) :
    ¬ IsDeviceOption arg := by
  rcases h with hhead | rfl
  · exact not_isDeviceOption_value (by simpa [isValue] using hhead)
  · decide

/-- An item either is the option, and all its words are dropped, or all are kept
and what they set has nothing to do with the device. -/
theorem Item.strip {words : List Str} {set : Draft → Option Draft} (h : Item words set) :
    ((∃ value, set = fun p => p.setDevice value) ∧ (∃ arg ∈ words, IsDeviceOption arg) ∧
        ∀ rest, stripFrom false (words ++ rest) = stripFrom false rest) ∨
      (∀ rest, stripFrom false (words ++ rest) = words ++ stripFrom false rest) ∧
        ∀ p p', set p = some p' → set p.noDevice = some p'.noDevice ∧ p'.device = p.device := by
  cases h with
  | verify =>
      refine .inr ⟨fun rest => stripFrom_kept (by decide) rest, fun p p' hset => ?_⟩
      obtain ⟨hverify, rfl⟩ := Draft.setVerify_eq_some.mp hset
      exact ⟨Draft.setVerify_eq_some.mpr ⟨hverify, rfl⟩, rfl⟩
  | anyDevice =>
      refine .inr ⟨fun rest => stripFrom_kept (by decide) rest, fun p p' hset => ?_⟩
      obtain ⟨hany, rfl⟩ := Draft.setAnyDevice_eq_some.mp hset
      exact ⟨Draft.setAnyDevice_eq_some.mpr ⟨hany, rfl⟩, rfl⟩
  | device hvalue =>
      refine .inl ⟨⟨_, rfl⟩, ⟨_, List.mem_cons_self, .inl rfl⟩, fun rest => ?_⟩
      rw [List.cons_append, stripFrom_device rfl, List.cons_append, stripFrom_true_cons,
        List.nil_append]
  | deviceAttached value =>
      have hattached : "--device=".toList.isPrefixOf ("--device=".toList ++ value) = true :=
        List.isPrefixOf_iff_prefix.mpr (List.prefix_append _ value)
      refine .inl ⟨⟨_, rfl⟩, ⟨_, List.mem_cons_self, .inr hattached⟩, fun rest => ?_⟩
      exact stripFrom_attached (by simp) hattached rest
  | fd hvalue =>
      -- the value of another option is no option itself
      refine .inr ⟨fun rest => ?_, fun p p' hset => ?_⟩
      · rw [List.cons_append, stripFrom_kept (by decide), List.cons_append,
          stripFrom_kept (not_isDeviceOption_value hvalue), List.nil_append]
        rfl
      · obtain ⟨hfd, n, hn, rfl⟩ := Draft.setFd_eq_some.mp hset
        exact ⟨Draft.setFd_eq_some.mpr ⟨hfd, n, hn, rfl⟩, rfl⟩
  | fdAttached value =>
      refine .inr ⟨fun rest => stripFrom_kept ?_ rest, fun p p' hset => ?_⟩
      · simp [IsDeviceOption, List.isPrefixOf]
      · obtain ⟨hfd, n, hn, rfl⟩ := Draft.setFd_eq_some.mp hset
        exact ⟨Draft.setFd_eq_some.mpr ⟨hfd, n, hn, rfl⟩, rfl⟩
  | file harg =>
      refine .inr ⟨fun rest => stripFrom_kept (not_isDeviceOption_file harg) rest,
        fun p p' hset => ?_⟩
      obtain ⟨hfile, rfl⟩ := Draft.setFile_eq_some.mp hset
      exact ⟨Draft.setFile_eq_some.mpr ⟨hfile, rfl⟩, rfl⟩

/-- The file of an item is one of its words. -/
theorem Item.file_mem {words : List Str} {set : Draft → Option Draft} (h : Item words set)
    {p p' : Draft} (hset : set p = some p') : p'.file = p.file ∨ ∃ f ∈ words, p'.file = some f := by
  cases h with
  | verify => exact .inl (by rw [(Draft.setVerify_eq_some.mp hset).2])
  | anyDevice => exact .inl (by rw [(Draft.setAnyDevice_eq_some.mp hset).2])
  | device | deviceAttached => exact .inl (by rw [(Draft.setDevice_eq_some.mp hset).2])
  | fd | fdAttached =>
      obtain ⟨-, n, -, rfl⟩ := Draft.setFd_eq_some.mp hset
      exact .inl rfl
  | file =>
      exact .inr ⟨_, List.mem_cons_self, by rw [(Draft.setFile_eq_some.mp hset).2]⟩

/-- The file that is read is one of the arguments. -/
theorem Reads.file_mem {p q : Draft} {args : List Str} (h : Reads p args q) :
    q.file = p.file ∨ ∃ f ∈ args, q.file = some f := by
  induction h with
  | done => exact .inl rfl
  | dashes hrest =>
      rcases readPositional_eq_some.mp hrest with ⟨rfl, rfl⟩ | ⟨file, rfl, hset⟩
      · exact .inl rfl
      · exact .inr ⟨file, by simp, by rw [(Draft.setFile_eq_some.mp hset).2]⟩
  | item hitem hset _ ih =>
      rcases ih with hsame | ⟨f, hf, hfile⟩
      · rcases hitem.file_mem hset with hkept | ⟨f, hf, hfile⟩
        · exact .inl (hsame.trans hkept)
        · exact .inr ⟨f, List.mem_append_left _ hf, hsame.trans hfile⟩
      · exact .inr ⟨f, List.mem_append_right _ hf, hfile⟩

/-- Without the option no device is read. -/
theorem Reads.device_eq {p q : Draft} {args : List Str} (h : Reads p args q)
    (hclean : ∀ arg ∈ args, ¬ IsDeviceOption arg) : q.device = p.device := by
  induction h with
  | done => rfl
  | dashes hrest =>
      rcases readPositional_eq_some.mp hrest with ⟨rfl, rfl⟩ | ⟨file, rfl, hset⟩
      · rfl
      · rw [(Draft.setFile_eq_some.mp hset).2]
  | item hitem hset _ ih =>
      rw [List.forall_mem_append] at hclean
      rcases hitem.strip with ⟨-, ⟨arg, harg, hoption⟩, -⟩ | ⟨-, hframe⟩
      · exact absurd hoption (hclean.1 arg harg)
      · rw [ih hclean.2, (hframe _ _ hset).2]

/-- What is left reads as the same, without the device, unless the file is named
like the option. -/
theorem Reads.strip {p q : Draft} {args : List Str} (h : Reads p args q)
    (hfile : ∀ f, q.file = some f → ¬ IsDeviceOption f) :
    Reads p.noDevice (stripFrom false args) q.noDevice := by
  induction h with
  | done => exact .done
  | dashes hrest =>
      rw [stripFrom_kept (by decide)]
      refine .dashes ?_
      -- what follows is a file, if anything
      rcases readPositional_eq_some.mp hrest with ⟨rfl, rfl⟩ | ⟨file, rfl, hset⟩
      · exact readPositional_eq_some.mpr (.inl ⟨rfl, rfl⟩)
      · obtain ⟨hnone, rfl⟩ := Draft.setFile_eq_some.mp hset
        rw [stripFrom_kept (hfile file rfl)]
        exact readPositional_eq_some.mpr
          (.inr ⟨file, rfl, Draft.setFile_eq_some.mpr ⟨hnone, rfl⟩⟩)
  | item hitem hset _ ih =>
      have ih := ih hfile
      rcases hitem.strip with ⟨⟨value, rfl⟩, -, hdropped⟩ | ⟨hkept, hframe⟩
      · obtain ⟨-, rfl⟩ := Draft.setDevice_eq_some.mp hset
        rw [hdropped]
        exact ih
      · rw [hkept]
        exact .item hitem (hframe _ _ hset).1 ih

/-- If stripping leaves nothing, no file was read. -/
theorem Reads.file_of_strip_nil {p q : Draft} {args : List Str} (h : Reads p args q)
    (hnil : stripFrom false args = []) : q.file = p.file := by
  induction h with
  | done => rfl
  | dashes _ =>
      rw [stripFrom_kept (by decide)] at hnil
      cases hnil
  | item hitem hset _ ih =>
      rcases hitem.strip with ⟨⟨value, rfl⟩, -, hdropped⟩ | ⟨hkept, -⟩
      · rw [hdropped] at hnil
        obtain ⟨-, rfl⟩ := Draft.setDevice_eq_some.mp hset
        exact ih hnil
      · -- an item has at least one word
        rw [hkept] at hnil
        obtain ⟨rfl, -⟩ := List.append_eq_nil_iff.mp hnil
        cases hitem

theorem stripDeviceArg_load (rest : List Str) :
    stripDeviceArg ("load".toList :: rest) = "load".toList :: stripFrom false rest :=
  stripFrom_kept (by decide) rest

/-- Stripping accepted arguments leaves the subcommand and at least one more. -/
theorem stripDeviceArg_of_parse {args : List Str} {a : LoadArgs} (h : parse args = some a) :
    ∃ arg rest, stripDeviceArg args = "load".toList :: arg :: rest := by
  obtain ⟨rest, rfl, hreads⟩ := parse_eq_some_iff.mp h
  rw [stripDeviceArg_load]
  cases hrest : stripFrom false rest with
  | nil => cases hreads.file_of_strip_nil hrest
  | cons arg rest' => exact ⟨arg, rest', rfl⟩

/-- Stripping changes nothing but the device, exactly if the file is not named
like the option. -/
theorem parse_stripDeviceArg_iff {args : List Str} {a : LoadArgs} (h : parse args = some a) :
    parse (stripDeviceArg args) = some { a with device := none } ↔ ¬ IsDeviceOption a.file := by
  obtain ⟨rest, rfl, hreads⟩ := parse_eq_some_iff.mp h
  rw [stripDeviceArg_load]
  constructor
  · intro hparse hoption
    -- the file would be among the arguments that are left
    obtain ⟨rest', hrest, hreads'⟩ := parse_eq_some_iff.mp hparse
    obtain rfl := (List.cons.inj hrest).2
    rcases hreads'.file_mem with hnone | ⟨f, hf, hfile⟩
    · simp [draftOf, Draft.empty] at hnone
    · obtain rfl := Option.some.inj hfile
      have hmem : a.file ∈ stripDeviceArg rest := hf
      exact not_device_of_mem_strip hmem hoption
  · intro hoption
    refine parse_eq_some_iff.mpr ⟨_, rfl, ?_⟩
    exact hreads.strip fun f hf => by rwa [← Option.some.inj hf]

/-- A file named `--device`, after a bare `--`. -/
def fileNamedDevice : List Str :=
  ["load".toList, "--device".toList, "/dev/bus/usb/001/002".toList, "--".toList,
    "--device".toList]

/-- The name of the file is dropped as well, and the rest is not accepted. -/
theorem fileNamedDevice_stripped :
    parse fileNamedDevice =
        some ⟨"--device".toList, false, false, some "/dev/bus/usb/001/002".toList, none⟩ ∧
      stripDeviceArg fileNamedDevice = ["load".toList, "--".toList] ∧
      parse (stripDeviceArg fileNamedDevice) = none := by
  decide +kernel

theorem parse_stripDeviceArg_iff_loadThroughTermux :
    parse (stripDeviceArg loadThroughTermux) =
        some ⟨"fw.uf2".toList, false, false, none, none⟩ ↔ ¬ IsDeviceOption "fw.uf2".toList :=
  parse_stripDeviceArg_iff
    (a := ⟨"fw.uf2".toList, false, false, some "/dev/bus/usb/001/002".toList, none⟩)
    (by decide +kernel)

end Cli

end PicotoolRs
