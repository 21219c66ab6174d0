import Mathlib.Tactic.Common

/-!
# PicotoolRs.Cli

The command line (`LoadArgs` of `main.rs`) and the grammar its `clap` derive
attributes declare: subcommand `load`; the flags `--verify` and `--any-device`;
`--device` and `--fd` with a separate value that does not start with a dash, or
with an attached one; one positional file; options and file in any order; every
argument after a bare `--` positional. An option given twice is refused.

Strings are lists of characters.
-/

namespace PicotoolRs

/-- A string. -/
abbrev Str := List Char

/-- White space, as `str::trim` understands it. -/
def isWhiteSpace (c : Char) : Bool :=
  let n := c.toNat
  (9 ≤ n && n ≤ 13) || n = 0x20 || n = 0x85 || n = 0xA0 || n = 0x1680 ||
    (0x2000 ≤ n && n ≤ 0x200A) || n = 0x2028 || n = 0x2029 || n = 0x202F || n = 0x205F ||
    n = 0x3000

/-- `str::trim`. -/
def trim (s : Str) : Str :=
  ((s.dropWhile isWhiteSpace).reverse.dropWhile isWhiteSpace).reverse

/-- The value of a non-empty string of decimal digits. -/
def parseDigits : Str → Option Nat
  | [] => none
  | s => s.foldlM (fun n c => if c.isDigit then some (10 * n + (c.toNat - '0'.toNat)) else none) 0

/-- `str::parse::<i32>`. -/
def parseI32 (s : Str) : Option Int := do
  let n ← match s with
    | '-' :: digits => (parseDigits digits).map fun n => -(n : Int)
    | '+' :: digits => (parseDigits digits).map fun n => (n : Int)
    | digits => (parseDigits digits).map fun n => (n : Int)
  if -0x80000000 ≤ n ∧ n < 0x80000000 then some n else none

/-- Arguments of the `load` subcommand. -/
structure LoadArgs where
  /-- Path to the UF2 file to flash. -/
  file : Str
  /-- Read back and verify flash after writing. -/
  verify : Bool
  /-- Flash the opened device even if it does not identify as RP2040 BOOTSEL. -/
  anyDevice : Bool
  /-- Flash through `termux-usb` for this USB device path. -/
  device : Option Str
  /-- Open this already-open descriptor instead of enumerating. -/
  fd : Option Int
  deriving Repr, DecidableEq

namespace Cli

/-- What an argument is, before a bare `--`. -/
inductive Token
  /-- A bare `--`. -/
  | dashes
  | verify
  | anyDevice
  /-- `--device`, with its value if one is attached. -/
  | device (value : Option Str)
  /-- `--fd`, with its value if one is attached. -/
  | fd (value : Option Str)
  /-- An option there is not. -/
  | unknown
  | positional
  deriving Repr, DecidableEq

/-- What follows `pre` in `arg`. -/
def afterPrefix (pre arg : Str) : Option Str :=
  if pre.isPrefixOf arg then some (arg.drop pre.length) else none

/-- Classify an argument. -/
def classify (arg : Str) : Token :=
  if arg = "--".toList then .dashes
  else if arg = "--verify".toList then .verify
  else if arg = "--any-device".toList then .anyDevice
  else if arg = "--device".toList then .device none
  else if arg = "--fd".toList then .fd none
  else
    match afterPrefix "--device=".toList arg, afterPrefix "--fd=".toList arg with
    | some value, _ => .device (some value)
    | none, some value => .fd (some value)
    | none, none => if arg.head? = some '-' ∧ arg ≠ ['-'] then .unknown else .positional

/-- What has been read of the arguments so far. -/
structure Draft where
  file : Option Str
  verify : Bool
  anyDevice : Bool
  device : Option Str
  fd : Option Int
  deriving Repr, DecidableEq

/-- Nothing has been read. -/
def Draft.empty : Draft := ⟨none, false, false, none, none⟩

namespace Draft

def setVerify (p : Draft) : Option Draft :=
  if p.verify then none else some { p with verify := true }

def setAnyDevice (p : Draft) : Option Draft :=
  if p.anyDevice then none else some { p with anyDevice := true }

def setDevice (p : Draft) (value : Str) : Option Draft :=
  if p.device.isSome then none else some { p with device := some value }

def setFd (p : Draft) (value : Str) : Option Draft :=
  if p.fd.isSome then none else (parseI32 value).map fun n => { p with fd := some n }

def setFile (p : Draft) (value : Str) : Option Draft :=
  if p.file.isSome then none else some { p with file := some value }

end Draft

/-- A separate value does not start with a dash. -/
def isValue (arg : Str) : Bool := arg.head? ≠ some '-'

/-- Read the arguments after a bare `--`. -/
def readPositional (p : Draft) (args : List Str) : Option Draft := args.foldlM Draft.setFile p

/-- Read the arguments of `load`. -/
def readArgs (p : Draft) : List Str → Option Draft
  | [] => some p
  | arg :: rest =>
      match classify arg with
      | .dashes => readPositional p rest
      | .verify => p.setVerify.bind fun p => readArgs p rest
      | .anyDevice => p.setAnyDevice.bind fun p => readArgs p rest
      | .device (some value) => (p.setDevice value).bind fun p => readArgs p rest
      | .fd (some value) => (p.setFd value).bind fun p => readArgs p rest
      | .device none =>
          match rest with
          | [] => none
          | value :: rest =>
              if isValue value then (p.setDevice value).bind fun p => readArgs p rest else none
      | .fd none =>
          match rest with
          | [] => none
          | value :: rest =>
              if isValue value then (p.setFd value).bind fun p => readArgs p rest else none
      | .unknown => none
      | .positional => (p.setFile arg).bind fun p => readArgs p rest

/-- The command line without the program name, if the grammar accepts it. -/
def parse : List Str → Option LoadArgs
  | [] => none
  | command :: args =>
      if command = "load".toList then do
        let p ← readArgs .empty args
        return { file := ← p.file, verify := p.verify, anyDevice := p.anyDevice,
                 device := p.device, fd := p.fd }
      else none

end Cli

end PicotoolRs
