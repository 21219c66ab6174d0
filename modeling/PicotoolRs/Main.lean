import PicotoolRs.Load
import PicotoolRs.Reexec

/-!
# PicotoolRs.Main

The binary's `load` command (`main.rs`) from the parsed arguments on.

`World` holds the answers of the operating system and of `nusb` to the calls
made before the first transfer. `flashFile` is the part of `run_load` after the
device is opened.
-/

namespace PicotoolRs

open Lib Constants

/-- An error of the operating system, which nothing here looks into. -/
structure IoError where
  code : UInt32
  deriving Repr, DecidableEq

/-- The platforms the source distinguishes. -/
inductive Platform
  | linux
  | android
  | other
  deriving Repr, DecidableEq

/-- An enumerated device, not opened yet. -/
structure DeviceInfo where
  vendorId : UInt16
  productId : UInt16
  opened : Except UsbError UsbDevice

/-- What the environment answers. -/
structure World where
  platform : Platform
  readFile : Str → Except IoError (List UInt8)
  termuxUsbFd : Option Str
  listDevices : Except UsbError (List DeviceInfo)
  fromFd : Int → Except UsbError UsbDevice
  currentExe : Except IoError Str
  /-- `exec` returns only if it fails. -/
  exec : ExecCall → IoError

/-- Errors of the command, each with its context. -/
inductive RunError
  /-- `--device` is only supported on Termux/Android. -/
  | reexecUnsupported
  /-- Locating own executable for re-exec. -/
  | locatingExe (source : IoError)
  /-- Executing termux-usb. -/
  | executingTermuxUsb (source : IoError)
  /-- Reading the UF2 file. -/
  | readingFile (path : Str) (source : IoError)
  /-- Opening the BOOTSEL device. -/
  | openingDevice (source : DeviceError)
  /-- Parsing the UF2 file. -/
  | parsingFile (path : Str) (source : Uf2Error)
  /-- Flashing the UF2. -/
  | flashing (source : LoadError)
  deriving Repr, DecidableEq

/-- Re-execute through `termux-usb` on Android, fail elsewhere. -/
def reexecViaTermux (w : World) (path : Str) (args : List Str) : Outcome RunError Unit :=
  match w.platform with
  | .android =>
      match w.currentExe with
      | .error e => .err (.locatingExe e)
      | .ok exe => .err (.executingTermuxUsb (w.exec (reexecCall exe path args)))
  | _ => .err .reexecUnsupported

/-- Resolve the USB descriptor: the `--fd` flag wins, else `$TERMUX_USB_FD`,
else none. -/
def resolveFd (w : World) (flag : Option Int) : Option Int :=
  flag.orElse fun () => w.termuxUsbFd.bind fun s => parseI32 (trim s)

namespace Device

/-- Find and open the BOOTSEL device by enumeration. -/
def openEnumerate {σ : Type} (w : World) (verifyId : Bool) :
    Session Request Completion σ DeviceError Device :=
  if w.platform = .android then Session.throw .enumerateUnsupported
  else do
    let infos ← Session.ofOutcome (ofUsb w.listDevices)
    match infos.find? fun d => d.vendorId = vendorId ∧ d.productId = productId with
    | none => Session.throw (.notFound vendorId productId)
    | some info => do
        let device ← Session.ofOutcome (ofUsb info.opened)
        fromNusb device verifyId

/-- Open the BOOTSEL device from an already-open descriptor. Taking ownership of
the descriptor -1, which `OwnedFd` has no room for, panics. -/
def openFd {σ : Type} (w : World) (fd : Int) (verifyId : Bool) :
    Session Request Completion σ DeviceError Device :=
  if w.platform = .other then Session.throw .fdUnsupported
  else if fd = -1 then Session.ofOutcome .panic
  else do
    let device ← Session.ofOutcome (ofUsb (w.fromFd fd))
    fromNusb device verifyId

/-- Open the device, by descriptor if one was supplied. -/
def openDevice {σ : Type} (w : World) (fd : Option Int) (verifyId : Bool) :
    Session Request Completion σ DeviceError Device :=
  match fd with
  | some fd => openFd w fd verifyId
  | none => openEnumerate w verifyId

end Device

/-- Resolve the upper bound of the flash-address guard: from the detected flash
size, or the conservative `flashEnd` when detection fails or gives nothing
plausible. -/
def resolveFlashEnd {ε : Type} : Session Request Completion Device ε UInt32 := do
  match ← Device.detectFlashSize.asResult with
  | .ok (some size) => Session.ofOption (U32.add flashStart size)
  | .ok none => return flashEnd
  | .error _ => return flashEnd

/-- The part of `run_load` after the device is opened. -/
def flashFile (path : Str) (bytes : List UInt8) (verify : Bool) :
    Session Request Completion Device RunError Unit := do
  let flashEnd ← resolveFlashEnd
  let segments ← Session.ofOutcome ((parse bytes flashEnd).mapErr (.parsingFile path))
  (load segments verify).mapErr .flashing

/-- The `load` command; `argv` are the process's own arguments, without the
program name. -/
def runLoad (w : World) (argv : List Str) (args : LoadArgs) :
    Session Request Completion Unit RunError Unit :=
  match args.device with
  | some path => Session.ofOutcome (reexecViaTermux w path argv)
  | none => do
      let bytes ← Session.ofOutcome <|
        match w.readFile args.file with
        | .ok bytes => .ok bytes
        | .error e => .err (.readingFile args.file e)
      let fd := resolveFd w args.fd
      let device ← (Device.openDevice w fd !args.anyDevice).mapErr .openingDevice
      let ((), _) ← Session.withState device (flashFile args.file bytes args.verify)
      return ()

end PicotoolRs
