import PicotoolRs.Reexec.Strip

/-!
# PicotoolRs.Reexec.Transport

The argument transport between the outer and the inner run.

Joining by NUL and splitting at NUL are inverse to each other
(`innerArgs_packInnerArgs`), so the two ends agree. The channel between them is
an environment variable, which carries no NUL, and there is always more than one
argument to join: the subcommand and what names the file.
-/

namespace PicotoolRs

/-! ### The transport -/

/-- The value is one that an environment variable can carry. -/
def Carriable (value : Str) : Prop := nul ∉ value

/-- The transport is lossless: the stored value can be carried, and reading it
back gives the program name and the stripped arguments. -/
def Lossless (prog : Str) (args : List Str) : Prop :=
  Carriable (packInnerArgs args) ∧
    innerArgs (some "1".toList) (some prog) (some (packInnerArgs args)) =
      some (prog :: stripDeviceArg args)

instance (prog : Str) (args : List Str) : Decidable (Lossless prog args) :=
  inferInstanceAs (Decidable (nul ∉ _ ∧ _))

/-- The inner run splits what the outer run joins, for arguments without NUL of
which the first kept one is not empty. -/
theorem innerArgs_packInnerArgs {args : List Str} {arg : Str} {rest : List Str} (guard prog : Str)
    (hnul : ∀ a ∈ args, nul ∉ a) (hstrip : stripDeviceArg args = arg :: rest) (harg : arg ≠ []) :
    innerArgs (some guard) (some prog) (some (packInnerArgs args)) =
      some (prog :: stripDeviceArg args) := by
  have hkept : ∀ a ∈ stripDeviceArg args, nul ∉ a := fun a ha =>
    hnul a ((stripDeviceArg_sublist args).subset ha)
  have hsplit : splitNul (packInnerArgs args) = stripDeviceArg args := by
    refine List.splitOn_intercalate nul hkept ?_
    simp [hstrip]
  have hpacked : (packInnerArgs args).isEmpty = false := by
    cases hvalue : packInnerArgs args with
    | cons c value => rfl
    | nil =>
        rw [hvalue] at hsplit
        have hempty : splitNul [] = [[]] := rfl
        rw [← hsplit, hempty] at hstrip
        exact absurd (List.cons.inj hstrip).1.symm harg
  simp [innerArgs, hpacked, hsplit]

/-- No accepted command line is transported without loss: what is kept is joined
by NUL, and there are always two arguments to join. -/
theorem transport_never_lossless {args : List Str} {a : LoadArgs} (h : Cli.parse args = some a)
    (prog : Str) : ¬ Lossless prog args := by
  intro hlossless
  obtain ⟨arg, rest, hstrip⟩ := Cli.stripDeviceArg_of_parse h
  refine hlossless.1 ?_
  rw [packInnerArgs, hstrip, List.intercalate_cons_cons]
  simp

/-- The stored value has a NUL between the two arguments that are kept. -/
theorem loadThroughTermux_not_lossless :
    (Cli.parse loadThroughTermux).map LoadArgs.device =
        some (some "/dev/bus/usb/001/002".toList) ∧
      (∀ arg ∈ loadThroughTermux, nul ∉ arg) ∧
      packInnerArgs loadThroughTermux = "load".toList ++ nul :: "fw.uf2".toList ∧
      ¬ Lossless "picotool-rs".toList loadThroughTermux := by
  decide +kernel

theorem transport_never_lossless_loadThroughTermux :
    ¬ Lossless "picotool-rs".toList loadThroughTermux :=
  transport_never_lossless
    (a := ⟨"fw.uf2".toList, false, false, some "/dev/bus/usb/001/002".toList, none⟩)
    (by decide +kernel) _

end PicotoolRs
