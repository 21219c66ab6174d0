import PicotoolRs.Constants
import PicotoolRs.Lib.U32

/-!
# PicotoolRs.Picoboot

PICOBOOT command encoding (`picoboot.rs`). Every command is a packet of 32
bytes:

| offset | size | field |
|--------|------|-------|
| 0  | 4  | magic |
| 4  | 4  | token, chosen by the host |
| 8  | 1  | command id; bit 7 set for a data phase towards the host |
| 9  | 1  | number of bytes used in the arguments |
| 10 | 2  | reserved, zero |
| 12 | 4  | bytes in the data phase |
| 16 | 16 | arguments |

The buffer the source fills in place is a list; `copyAt` is `copy_from_slice`
into a range of it.
-/

namespace PicotoolRs

open Lib Constants

/-- Exclusivity level of an exclusive-access command. -/
inductive Exclusivity
  /-- Share access with the mass-storage interface. -/
  | notExclusive
  /-- Take exclusive access, locking out mass storage. -/
  | exclusive
  /-- Take exclusive access and eject the mass-storage volume. -/
  | exclusiveAndEject
  deriving Repr, DecidableEq

/-- The byte a level is sent as. -/
def Exclusivity.toByte : Exclusivity → UInt8
  | notExclusive => 0
  | exclusive => 1
  | exclusiveAndEject => 2

/-- The data transfer that follows a command packet, if any. -/
inductive DataPhase
  /-- No data phase; the command is acknowledged directly. -/
  | none
  /-- `len` bytes flow from the host to the device. -/
  | hostToDevice (len : UInt32)
  /-- `len` bytes flow from the device to the host. -/
  | deviceToHost (len : UInt32)
  deriving Repr, DecidableEq

/-- A PICOBOOT command. -/
inductive Command
  /-- Claim (or release) access to the device relative to mass storage. -/
  | exclusiveAccess (level : Exclusivity)
  /-- Leave XIP mode so flash can be erased and written. -/
  | exitXip
  /-- Re-enter command-based XIP so flash can be read back. -/
  | enterCmdXip
  /-- Execute a function previously written to RAM. -/
  | exec (addr : UInt32)
  /-- Erase a flash region. -/
  | flashErase (addr size : UInt32)
  /-- Write `size` bytes, carried in the data phase, to memory at `addr`. -/
  | write (addr size : UInt32)
  /-- Read `size` bytes from memory at `addr`. -/
  | read (addr size : UInt32)
  /-- Reboot the device. -/
  | reboot (pc sp delayMs : UInt32)
  deriving Repr, DecidableEq

namespace Command

/-- The command id byte (`CMD_*`). -/
def cmdId : Command → UInt8
  | exclusiveAccess _ => 0x01
  | exitXip => 0x06
  | enterCmdXip => 0x07
  | exec _ => 0x08
  | flashErase _ _ => 0x03
  | write _ _ => 0x05
  | read _ _ => 0x84
  | reboot _ _ _ => 0x02

/-- Number of bytes used in the arguments. -/
def cmdSize : Command → UInt8
  | exclusiveAccess _ => 1
  | exitXip | enterCmdXip => 0
  | exec _ => 4
  | flashErase _ _ | write _ _ | read _ _ => 8
  | reboot _ _ _ => 12

/-- The data phase that follows the packet. -/
def dataPhase : Command → DataPhase
  | write _ size => .hostToDevice size
  | read _ size => .deviceToHost size
  | _ => .none

/-- Number of bytes in the data phase (0 if none). -/
def transferLength (cmd : Command) : UInt32 :=
  match cmd.dataPhase with
  | .none => 0
  | .hostToDevice n | .deviceToHost n => n

/-- `buf[off..off + bytes.len()].copy_from_slice(bytes)`. -/
def copyAt (buf : List UInt8) (off : Nat) (bytes : List UInt8) : List UInt8 :=
  buf.take off ++ bytes ++ buf.drop (off + bytes.length)

/-- Fill the argument region. -/
def writeArgs (cmd : Command) (args : List UInt8) : List UInt8 :=
  match cmd with
  | exclusiveAccess level => args.set 0 level.toByte
  | exec addr => copyAt args 0 (U32.toLeBytes addr)
  | flashErase addr size | write addr size | read addr size =>
      copyAt (copyAt args 0 (U32.toLeBytes addr)) 4 (U32.toLeBytes size)
  | reboot pc sp delayMs =>
      copyAt (copyAt (copyAt args 0 (U32.toLeBytes pc)) 4 (U32.toLeBytes sp)) 8
        (U32.toLeBytes delayMs)
  | exitXip | enterCmdXip => args

/-- The 32 bytes of the command, with `token` in the header. -/
def encode (cmd : Command) (token : UInt32) : List UInt8 :=
  let buf := List.replicate 32 0
  let buf := copyAt buf 0 (U32.toLeBytes picobootMagic)
  let buf := copyAt buf 4 (U32.toLeBytes token)
  let buf := buf.set 8 cmd.cmdId
  let buf := buf.set 9 cmd.cmdSize
  -- bytes 10..12 are reserved and left zero
  let buf := copyAt buf 12 (U32.toLeBytes cmd.transferLength)
  copyAt buf 16 (cmd.writeArgs (buf.drop 16))

/-- The argument region of a packet. -/
def args (cmd : Command) : List UInt8 := cmd.writeArgs (List.replicate 16 0)

/-- The packet, field by field. -/
theorem encode_eq (cmd : Command) (token : UInt32) :
    cmd.encode token = U32.toLeBytes picobootMagic ++ (U32.toLeBytes token ++
      ([cmd.cmdId, cmd.cmdSize, 0, 0] ++ (U32.toLeBytes cmd.transferLength ++ cmd.args))) := by
  cases cmd <;> rfl

@[simp] theorem length_args (cmd : Command) : cmd.args.length = 16 := by
  cases cmd <;> rfl

@[simp] theorem length_encode (cmd : Command) (token : UInt32) :
    (cmd.encode token).length = 32 := by
  simp [encode_eq]

end Command

end PicotoolRs
