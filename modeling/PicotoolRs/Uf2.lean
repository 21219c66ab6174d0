import PicotoolRs.Constants
import PicotoolRs.Lib.Chunks
import PicotoolRs.Lib.Outcome
import PicotoolRs.Lib.U32

/-!
# PicotoolRs.Uf2

The UF2 parser (`uf2.rs`), function by function. Additions of `u32` are the
checked ones and slices are bounds-checked, so that an overflow or an index out
of range is a `panic` of the model.

`Vec<Segment>` is a list whose last element is the last segment.
-/

namespace PicotoolRs

open Lib Constants

/-- A contiguous run of bytes to write to flash. -/
structure Segment where
  /-- Absolute flash start address. -/
  addr : UInt32
  /-- Bytes to write, in order. -/
  data : List UInt8
  deriving Repr, DecidableEq

/-- First address past the end of the segment (`Segment::end`). -/
def Segment.endAddr (s : Segment) : Option UInt32 :=
  U32.add s.addr (U32.ofUsize s.data.length)

/-- Errors produced while parsing a UF2 file. -/
inductive Uf2Error
  /-- The input is empty. -/
  | empty
  /-- The file length is not a whole number of blocks. -/
  | truncated (len : Nat)
  /-- A block's start or end magic word did not match. -/
  | badMagic (block : Nat)
  /-- A block's declared payload size exceeds the maximum. -/
  | payloadTooLarge (block : Nat) (size : UInt32)
  /-- A main-flash block carries no family id. -/
  | missingFamilyId (block : Nat)
  /-- A block's target range falls outside the flash window. -/
  | addressOutOfRange (block : Nat) (addr size flashEnd : UInt32)
  /-- Two accepted blocks overlap in their target addresses. -/
  | overlap (addr : UInt32)
  /-- No RP2040 main-flash blocks were found. -/
  | noFlashData
  deriving Repr, DecidableEq

/-- Read a little-endian `u32` at byte offset `off`. -/
def rdU32 (block : List UInt8) (off : Nat) : Option UInt32 := do
  let b₀ ← block[off]?
  let b₁ ← block[off + 1]?
  let b₂ ← block[off + 2]?
  let b₃ ← block[off + 3]?
  some (U32.fromLeBytes b₀ b₁ b₂ b₃)

/-- `&block[start..stop]`. -/
def slice (block : List UInt8) (start stop : Nat) : Option (List UInt8) :=
  if start ≤ stop ∧ stop ≤ block.length then some ((block.take stop).drop start) else none

/-- Append a block's payload to the segment list, coalescing with the previous
segment when the addresses are contiguous and rejecting overlaps. -/
def appendBlock (segments : List Segment) (addr : UInt32) (payload : List UInt8) :
    Outcome Uf2Error (List Segment) :=
  match segments.getLast? with
  | some last => do
      if addr = (← last.endAddr) then
        return segments.dropLast ++ [{ last with data := last.data ++ payload }]
      else if addr < (← last.endAddr) then
        .err (.overlap addr)
      else
        return segments ++ [{ addr, data := payload }]
  | none => return segments ++ [{ addr, data := payload }]

/-- The body of the loop in `parse` up to the call of `append_block`: the
target address and payload of block number `block`, or `none` where the source
says `continue`. -/
def blockPayload (flashEnd : UInt32) (block : Nat) (chunk : List UInt8) :
    Outcome Uf2Error (Option (UInt32 × List UInt8)) := do
  -- the source stops reading at the first magic that differs; no read can fail
  -- in a chunk of 512 bytes
  let start0 ← rdU32 chunk 0
  let start1 ← rdU32 chunk 4
  let magicEnd ← rdU32 chunk (uf2BlockSize - 4)
  if start0 ≠ uf2MagicStart0 ∨ start1 ≠ uf2MagicStart1 ∨ magicEnd ≠ uf2MagicEnd then
    .err (.badMagic block)
  else
    let flags ← rdU32 chunk 8
    if flags &&& uf2FlagNotMainFlash ≠ 0 then
      return none
    -- family-id guard
    else if flags &&& uf2FlagFamilyIdPresent = 0 then
      .err (.missingFamilyId block)
    else
      let family ← rdU32 chunk 28
      if family ≠ rp2040FamilyId then
        return none
      else
        let addr ← rdU32 chunk 12
        let size ← rdU32 chunk 16
        if size.toNat > uf2MaxPayload then
          .err (.payloadTooLarge block size)
        else
          -- flash-address guard, in `u64`
          let stop := addr.toUInt64 + size.toUInt64
          if addr < flashStart ∨ stop > flashEnd.toUInt64 then
            .err (.addressOutOfRange block addr size flashEnd)
          else
            let payload ← slice chunk 32 (32 + size.toNat)
            return some (addr, payload)

/-- One iteration of the loop in `parse`. -/
def parseBlock (flashEnd : UInt32) (segments : List Segment) (block : List UInt8 × Nat) :
    Outcome Uf2Error (List Segment) := do
  match ← blockPayload flashEnd block.2 block.1 with
  | none => return segments
  | some (addr, payload) => appendBlock segments addr payload

/-- Parse a UF2 file into coalesced, address-ordered flash segments. -/
def parse (bytes : List UInt8) (flashEnd : UInt32) : Outcome Uf2Error (List Segment) :=
  if bytes.isEmpty then
    .err .empty
  else if bytes.length % uf2BlockSize ≠ 0 then
    .err (.truncated bytes.length)
  else do
    let segments ← (chunksExact uf2BlockSize bytes).zipIdx.foldlM (parseBlock flashEnd) []
    if segments.isEmpty then
      .err .noFlashData
    else
      return segments

end PicotoolRs
