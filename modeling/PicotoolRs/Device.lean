import PicotoolRs.Detect
import PicotoolRs.Lib.Interaction
import PicotoolRs.Picoboot

/-!
# PicotoolRs.Device

The USB transport (`device.rs`), method by method.

A method is a `Host` session: it issues transfers (`Request`), each answered by
a `Completion`, and its state is the `Device` record behind `&mut self`. What
the peer does, and what `nusb` reports of it, is not modelled: a completion may
carry any status, any length and any buffer.

`Request.check` is not on the wire. It records which length the method goes on to
check the completion for, so that a run can be read without knowing the method
that was running; `Request.Sound.accepts` says, of every request of a run, what that
length is in terms of the transfers alone.
-/

namespace PicotoolRs

open Lib Constants

/-! ### Transfers -/

/-- Labels of operations, which errors carry. -/
inductive Op
  | interfaceReset
  | exclusiveAccess
  | exitXip
  | enterCmdXip
  | exec
  | flashErase
  | writeCommand
  | writeData
  | writeAck
  | readCommand
  | readData
  | readAck
  | reboot
  | rebootAck
  deriving Repr, DecidableEq

/-- A transfer handed to `nusb`. -/
inductive Transfer
  /-- Vendor control request to an interface, without data. -/
  | controlOut (request : UInt8) (value index : UInt16)
  /-- Bulk OUT of the buffer. -/
  | bulkOut (buf : List UInt8)
  /-- Bulk IN of up to `requested` bytes. -/
  | bulkIn (requested : Nat)
  deriving Repr, DecidableEq

/-- The length a completion is checked for. -/
inductive LengthCheck
  /-- Any length will do. -/
  | any
  /-- Exactly `n` bytes. -/
  | exactly (n : Nat)
  /-- At least `n` bytes. -/
  | atLeast (n : Nat)
  deriving Repr, DecidableEq

/-- A transfer with its label, its timeout in seconds, and the length its
completion is checked for. -/
structure Request where
  op : Op
  transfer : Transfer
  timeout : Nat
  check : LengthCheck
  deriving Repr, DecidableEq

/-- The underlying transfer error of `nusb`, which nothing here looks into. -/
structure TransferError where
  code : UInt32
  deriving Repr, DecidableEq

/-- An error of `nusb` outside a transfer, which nothing here looks into. -/
structure UsbError where
  code : UInt32
  deriving Repr, DecidableEq

/-- What `nusb` reports of a transfer. -/
structure Completion where
  status : Except TransferError Unit
  actualLen : Nat
  /-- The bytes received, for an IN transfer. -/
  buffer : List UInt8

/-- Errors from the USB transport layer. -/
inductive DeviceError
  /-- No BOOTSEL device was found during enumeration. -/
  | notFound (vid pid : UInt16)
  /-- The device exposes no PICOBOOT interface. -/
  | noPicobootInterface
  /-- The PICOBOOT interface lacks a bulk endpoint pair. -/
  | noBulkEndpoints
  /-- Opening from a file descriptor is not supported on the platform. -/
  | fdUnsupported
  /-- Enumeration is unavailable on the platform. -/
  | enumerateUnsupported
  /-- The opened device is not the RP2040 BOOTSEL device. -/
  | wrongDevice (vid pid : UInt16)
  /-- The active configuration could not be read. -/
  | config (message : String)
  /-- A USB control or setup operation failed. -/
  | usb (source : UsbError)
  /-- A bulk or control transfer failed. -/
  | transfer (op : Op) (source : TransferError)
  /-- A transfer moved fewer bytes than expected. -/
  | shortTransfer (op : Op) (expected actual : Nat)
  deriving Repr, DecidableEq

/-- An opened PICOBOOT connection. The interface and endpoint handles have no
state the host looks at. -/
structure Device where
  ifNum : UInt8
  inMaxPacket : Nat
  token : UInt32
  deriving Repr, DecidableEq

/-- The methods of `Device`. -/
abbrev Host := Session Request Completion Device DeviceError

/-- Timeout for a command packet, data chunk or acknowledgement, in seconds. -/
def commandTimeout : Nat := 5

/-- Timeout for a flash-erase acknowledgement, in seconds. -/
def eraseTimeout : Nat := 30

namespace Device

/-! ### Single transfers -/

/-- Next host token. -/
def nextToken : Host UInt32 := do
  Session.modify fun d => { d with token := d.token + 1 }
  return (← Session.get).token

/-- Send a bulk OUT transfer and require all bytes to be sent. -/
def writeOut (buf : List UInt8) (op : Op) (timeout : Nat) : Host Unit := do
  let expected := buf.length
  let completion ← Session.request
    { op, transfer := .bulkOut buf, timeout, check := .exactly expected }
  match completion.status with
  | .error source => Session.throw (.transfer op source)
  | .ok () =>
      if completion.actualLen ≠ expected then
        Session.throw (.shortTransfer op expected completion.actualLen)
      else
        return ()

/-- `n.div_ceil(k)`. -/
def divCeil (n k : Nat) : Option Nat :=
  if k = 0 then none else some (n / k + if n % k = 0 then 0 else 1)

/-- Read a bulk IN data transfer of at least `len` bytes, returning the first
`len`. -/
def readIn (len : Nat) (op : Op) (timeout : Nat) : Host (List UInt8) := do
  let inMaxPacket := (← Session.get).inMaxPacket
  let requested := max (← Session.ofOption (divCeil len inMaxPacket)) 1 * inMaxPacket
  let completion ← Session.request
    { op, transfer := .bulkIn requested, timeout, check := .atLeast len }
  match completion.status with
  | .error source => Session.throw (.transfer op source)
  | .ok () =>
      if completion.actualLen < len then
        Session.throw (.shortTransfer op len completion.actualLen)
      else
        return completion.buffer.take len

/-- Read the zero-length acknowledgement on bulk IN. -/
def readAck (op : Op) (timeout : Nat) : Host Unit := do
  let inMaxPacket := (← Session.get).inMaxPacket
  let completion ← Session.request
    { op, transfer := .bulkIn inMaxPacket, timeout, check := .any }
  match completion.status with
  | .error source => Session.throw (.transfer op source)
  | .ok () => return ()

/-- Write the zero-length acknowledgement on bulk OUT. -/
def writeAck (op : Op) : Host Unit := do
  let completion ← Session.request
    { op, transfer := .bulkOut [], timeout := commandTimeout, check := .any }
  match completion.status with
  | .error source => Session.throw (.transfer op source)
  | .ok () => return ()

/-! ### Commands -/

/-- Run a command that has no data phase: send the packet, read the
acknowledgement. -/
def execNoData (cmd : Command) (op : Op) (ackTimeout : Nat) : Host Unit := do
  let token ← nextToken
  writeOut (cmd.encode token) op commandTimeout
  readAck op ackTimeout

/-- Take exclusive access to the device. -/
def exclusiveAccess (level : Exclusivity) : Host Unit :=
  execNoData (.exclusiveAccess level) .exclusiveAccess commandTimeout

/-- Leave XIP mode. -/
def exitXip : Host Unit := execNoData .exitXip .exitXip commandTimeout

/-- Re-enter command XIP. -/
def enterCmdXip : Host Unit := execNoData .enterCmdXip .enterCmdXip commandTimeout

/-- Execute a function previously written to RAM. -/
def exec (addr : UInt32) : Host Unit := execNoData (.exec addr) .exec commandTimeout

/-- Erase a flash region. -/
def flashErase (addr size : UInt32) : Host Unit :=
  execNoData (.flashErase addr size) .flashErase eraseTimeout

/-- Write `data` at `addr`. -/
def flashWrite (addr : UInt32) (data : List UInt8) : Host Unit := do
  let token ← nextToken
  let cmd := Command.write addr (U32.ofUsize data.length)
  writeOut (cmd.encode token) .writeCommand commandTimeout
  writeOut data .writeData commandTimeout
  readAck .writeAck commandTimeout

/-- Read `len` bytes at `addr`. -/
def flashRead (addr : UInt32) (len : Nat) : Host (List UInt8) := do
  let token ← nextToken
  let cmd := Command.read addr (U32.ofUsize len)
  writeOut (cmd.encode token) .readCommand commandTimeout
  let data ← readIn len .readData commandTimeout
  writeAck .readAck
  return data

/-- Reboot the device; a missing acknowledgement is not a failure. -/
def reboot (pc sp delayMs : UInt32) : Host Unit := do
  let token ← nextToken
  let cmd := Command.reboot pc sp delayMs
  writeOut (cmd.encode token) .reboot commandTimeout
  match ← (readAck .rebootAck commandTimeout).asResult with
  | .error _ => return ()
  | .ok () => return ()

/-- Reset the PICOBOOT interface via the vendor control request. -/
def resetInterface : Host Unit := do
  let ifNum := (← Session.get).ifNum
  let completion ← Session.request
    { op := .interfaceReset, transfer := .controlOut picobootIfReset 0 ifNum.toUInt16,
      timeout := commandTimeout, check := .any }
  match completion.status with
  | .error source => Session.throw (.transfer .interfaceReset source)
  | .ok () => return ()

/-- Detect the attached flash size by reading its JEDEC id on the device; none
when the id is implausible. -/
def detectFlashSize : Host (Option UInt32) := do
  exclusiveAccess .exclusive
  exitXip
  flashWrite stubAddr flashIdStub
  exec stubAddr
  let id ← flashRead resultAddr 3
  let id0 ← Session.ofOption id[0]?
  let id1 ← Session.ofOption id[1]?
  let id2 ← Session.ofOption id[2]?
  return flashSizeFromJedec (id0, id1, id2)

end Device

/-! ### Opening -/

/-- Transfer type of an endpoint. -/
inductive TransferType
  | control
  | isochronous
  | bulk
  | interrupt
  deriving Repr, DecidableEq

/-- Direction of an endpoint. -/
inductive Direction
  | outbound
  | inbound
  deriving Repr, DecidableEq

/-- An endpoint descriptor. -/
structure Endpoint where
  address : UInt8
  transferType : TransferType
  direction : Direction
  deriving Repr, DecidableEq

/-- An interface of a configuration: its number, and the class and endpoints of
its first alternate setting. -/
structure Interface where
  interfaceNumber : UInt8
  interfaceClass : UInt8
  endpoints : List Endpoint
  deriving Repr, DecidableEq

/-- An opened `nusb` device: what it answers to the questions asked when a
connection is set up. -/
structure UsbDevice where
  vendorId : UInt16
  productId : UInt16
  activeConfiguration : Except String (List Interface)
  claimInterface : UInt8 → Except UsbError Unit
  /-- Opening an endpoint gives its maximum packet size. -/
  openEndpoint : UInt8 → Except UsbError Nat

/-- The addresses of the last bulk OUT and the last bulk IN endpoint. -/
def bulkEndpoints (endpoints : List Endpoint) : Option UInt8 × Option UInt8 :=
  endpoints.foldl
    (fun found ep =>
      if ep.transferType ≠ .bulk then found
      else
        match ep.direction with
        | .outbound => (some ep.address, found.2)
        | .inbound => (found.1, some ep.address))
    (none, none)

/-- Locate the PICOBOOT interface number and its bulk OUT/IN endpoint
addresses, in the first interface of the vendor class. -/
def findPicoboot (device : UsbDevice) : Outcome DeviceError (UInt8 × UInt8 × UInt8) :=
  match device.activeConfiguration with
  | .error e => .err (.config e)
  | .ok interfaces =>
      match interfaces.find? (·.interfaceClass = picobootInterfaceClass) with
      | none => .err .noPicobootInterface
      | some interface =>
          match bulkEndpoints interface.endpoints with
          | (some outAddr, some inAddr) => .ok (interface.interfaceNumber, outAddr, inAddr)
          | _ => .err .noBulkEndpoints

/-- The `?` on a result of `nusb`. -/
def ofUsb {α : Type} : Except UsbError α → Outcome DeviceError α
  | .ok a => .ok a
  | .error e => .err (.usb e)

namespace Device

/-- The part of `Device::from_nusb` before the interface reset. -/
def connect (device : UsbDevice) (verifyId : Bool) : Outcome DeviceError Device :=
  if verifyId ∧ (device.vendorId ≠ vendorId ∨ device.productId ≠ productId) then
    .err (.wrongDevice device.vendorId device.productId)
  else do
    let (ifNum, outAddr, inAddr) ← findPicoboot device
    ofUsb (device.claimInterface ifNum)
    let _ ← ofUsb (device.openEndpoint outAddr)
    let inMaxPacket ← ofUsb (device.openEndpoint inAddr)
    return { ifNum, inMaxPacket, token := 0 }

/-- Claim the PICOBOOT interface, open its bulk endpoints, and reset it to a
clean state. -/
def fromNusb {σ : Type} (device : UsbDevice) (verifyId : Bool) :
    Session Request Completion σ DeviceError Device := do
  let dev ← Session.ofOutcome (connect device verifyId)
  let ((), dev) ← Session.withState dev resetInterface
  return dev

end Device

end PicotoolRs
