import PicotoolRs.Device
import PicotoolRs.Lib.Chunks
import PicotoolRs.Lib.Intervals
import PicotoolRs.Uf2

/-!
# PicotoolRs.Load

The `load` operation (`load.rs`): take exclusive access, exit XIP, erase the
sectors covering the image, write each segment, optionally read back and
compare, then reboot.
-/

namespace PicotoolRs

open Lib Constants

/-- Bytes written (and read back) per data transfer. -/
def writeChunk : Nat := flashSectorSize.toNat

/-- Delay the device waits before rebooting, in milliseconds. -/
def rebootDelayMs : UInt32 := 500

/-- Errors from the `load` operation. -/
inductive LoadError
  /-- A transport-level operation failed. -/
  | device (source : DeviceError)
  /-- Read-back found bytes that differ from what was written. -/
  | verifyMismatch (addr : UInt32)
  deriving Repr, DecidableEq

/-! ### The erase plan -/

/-- Round `x` down to a multiple of `align` (a power of two). -/
def alignDown (x align : UInt32) : UInt32 := x &&& ~~~(align - 1)

/-- Round `x` up to a multiple of `align` (a power of two); the addition wraps.
-/
def alignUp (x align : UInt32) : UInt32 := (x + (align - 1)) &&& ~~~(align - 1)

/-- A segment's span, rounded out to whole sectors. -/
def eraseRange (s : Segment) : Option (UInt32 × UInt32) := do
  return (alignDown s.addr flashSectorSize, alignUp (← s.endAddr) flashSectorSize)

/-- The sector-aligned, merged erase ranges covering all segments, as
`(start, size)`. -/
def planErase (segments : List Segment) : Option (List (UInt32 × UInt32)) := do
  let ranges ← segments.mapM eraseRange
  let ranges := ranges.insertionSort fun r q => r.1 ≤ q.1
  let merged := Intervals.merge ranges
  merged.mapM fun r => do return (r.1, ← U32.sub r.2 r.1)

/-! ### The sequence -/

/-- A load session, with the errors of `load`. -/
abbrev Loader := Session Request Completion Device LoadError

/-- The `?` on a method of `Device`. -/
def Loader.run {α : Type} (m : Host α) : Loader α := m.mapErr .device

/-- The address of chunk number `index` of a segment. -/
def chunkAddr (seg : Segment) (index : Nat) : Loader UInt32 :=
  Session.ofOption (U32.add seg.addr (U32.ofUsize (index * writeChunk)))

/-- Write a segment, chunk by chunk. -/
def writeSegment (seg : Segment) : Loader Unit :=
  forM (chunks writeChunk seg.data).zipIdx fun (chunk, index) => do
    let addr ← chunkAddr seg index
    Loader.run (Device.flashWrite addr chunk)

/-- Read back a segment, chunk by chunk, and compare. -/
def verifySegment (seg : Segment) : Loader Unit :=
  forM (chunks writeChunk seg.data).zipIdx fun (chunk, index) => do
    let addr ← chunkAddr seg index
    let read ← Loader.run (Device.flashRead addr chunk.length)
    if read ≠ chunk then
      Session.throw (.verifyMismatch addr)

/-- Flash `segments` to the device and reboot. When `verify` is set, every
written chunk is read back and compared before rebooting. -/
def load (segments : List Segment) (verify : Bool) : Loader Unit := do
  Loader.run (Device.exclusiveAccess .exclusive)
  Loader.run Device.exitXip
  let plan ← Session.ofOption (planErase segments)
  forM plan fun (start, size) => Loader.run (Device.flashErase start size)
  forM segments writeSegment
  if verify then
    Loader.run Device.enterCmdXip
    forM segments verifySegment
  Loader.run (Device.reboot 0 sramEnd rebootDelayMs)

end PicotoolRs
