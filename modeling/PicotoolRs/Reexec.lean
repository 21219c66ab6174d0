import PicotoolRs.Cli

/-!
# PicotoolRs.Reexec

The re-execution through `termux-usb` (`main.rs`): the outer process drops
`--device` from its arguments and passes the rest to the inner process in an
environment variable, joined by NUL.
-/

namespace PicotoolRs

/-- Marks the inner run. -/
def reexecGuardEnv : Str := "PICOTOOL_REEXEC".toList

/-- Carries the inner process's arguments. -/
def innerArgsEnv : Str := "PICOTOOL_INNER_ARGS".toList

/-- The NUL character. -/
def nul : Char := Char.ofNat 0

/-- One argument in the loop of `strip_device_arg`; the state is `out` and
`skip_value`. -/
def stripStep (state : List Str × Bool) (arg : Str) : List Str × Bool :=
  if state.2 then (state.1, false)
  else if arg = "--device".toList then (state.1, true)
  else if ¬ "--device=".toList.isPrefixOf arg then (state.1 ++ [arg], false)
  else state

/-- Drop `--device <path>` (and the `--device=<path>` form). -/
def stripDeviceArg (args : List Str) : List Str := (args.foldl stripStep ([], false)).1

/-- The program, arguments and environment handed to `exec`. -/
structure ExecCall where
  program : Str
  args : List Str
  env : List (Str × Str)
  deriving Repr, DecidableEq

/-- The value the outer process stores in `innerArgsEnv`; `args` are its own
arguments without the program name. -/
def packInnerArgs (args : List Str) : Str := [nul].intercalate (stripDeviceArg args)

/-- What `reexec_via_termux` executes. -/
def reexecCall (exe path : Str) (args : List Str) : ExecCall where
  program := "termux-usb".toList
  args := ["-r".toList, "-E".toList, "-e".toList, exe, path]
  env := [(reexecGuardEnv, "1".toList), (innerArgsEnv, packInnerArgs args)]

/-- `str::split('\0')`. -/
def splitNul (s : Str) : List Str := s.splitOn nul

/-- The inner run's argument vector, or none for a normal outer run. `guard`
and `packed` are the values of the two variables, `prog` is the program name. -/
def innerArgs (guard : Option Str) (prog : Option Str) (packed : Option Str) :
    Option (List Str) := do
  let _ ← guard
  let prog := prog.getD "picotool-rs".toList
  let packed := packed.getD []
  return prog :: if packed.isEmpty then [] else splitNul packed

end PicotoolRs
