import PicotoolRs.Constants
import PicotoolRs.Lib.Thumb.Blocks

/-!
# PicotoolRs.Stub

The flash-id stub (`FLASH_ID_STUB` of `constants.rs`) as a program, and the
XIP_SSI block it drives.

The block is modelled by what the stub reads from it: the levels of the receive
FIFO, one for each read of RXFLR, and the frames, one for each read of DR0. What
is written to it is in the record of stores.
-/

namespace PicotoolRs

open Lib Lib.Thumb Constants

/-! ### The XIP_SSI block -/

/-- What the block answers. -/
structure Ssi where
  /-- The readings of RXFLR still to come. -/
  levels : List UInt32
  /-- The frames still to be read from DR0. -/
  frames : List UInt32
  deriving Repr, DecidableEq

namespace Ssi

def base : UInt32 := 0x18000000

/-- Control register 0. -/
def ctrlr0 : UInt32 := base

/-- Control register 1. -/
def ctrlr1 : UInt32 := base + 0x04

/-- SSI enable. -/
def ssienr : UInt32 := base + 0x08

/-- Slave enable. -/
def ser : UInt32 := base + 0x10

/-- Receive FIFO level. -/
def rxflr : UInt32 := base + 0x24

/-- Data register. -/
def dr0 : UInt32 := base + 0x60

/-- Read a register. -/
def read (d : Ssi) (a : UInt32) : Option (UInt32 × Ssi) :=
  if a = rxflr then
    match d.levels with
    | [] => none
    | w :: ws => some (w, { d with levels := ws })
  else if a = dr0 then
    match d.frames with
    | [] => none
    | f :: fs => some (f, { d with frames := fs })
  else none

end Ssi

/-- The block on the bus. -/
def ssi : Bus Ssi where
  covers a := decide (Mem.InRange Ssi.base 0x100 a)
  read := Ssi.read
  write d _ _ := some d

/-! ### The program -/

namespace Stub

/-- Save what the stub has to preserve. -/
def enter : List Instr := [.push [r4, lr]]

/-- Set up the block, and send the opcode and three dummy bytes. -/
def setup : List Instr :=
  [.movs r0 0x18, .lsls r0 r0 24, .movs r1 0, .str r1 r0 0x08, .movs r2 7, .lsls r2 r2 16,
    .str r2 r0 0x00, .str r1 r0 0x04, .movs r2 1, .str r2 r0 0x08, .str r2 r0 0x10,
    .movs r2 0x9f, .str r2 r0 0x60, .str r1 r0 0x60, .str r1 r0 0x60, .str r1 r0 0x60]

/-- Compare the level of the receive FIFO. -/
def poll : List Instr := [.ldr r2 r0 0x24, .cmp r2 4]

/-- Poll again. -/
def again : Instr := .b .cc (-4)

/-- Read the frames, and store all but the first one. -/
def readId : List Instr :=
  [.movs r4 0x20, .lsls r4 r4 24, .adds r4 0x80, .ldr r2 r0 0x60, .ldr r2 r0 0x60, .strb r2 r4 0,
    .ldr r2 r0 0x60, .strb r2 r4 1, .ldr r2 r0 0x60, .strb r2 r4 2]

/-- Return. -/
def leave : Instr := .pop [r4] true

/-- The stub. -/
def program : List Instr := enter ++ setup ++ poll ++ [again] ++ readId ++ [leave]

/-- The stub's bytes are this program. -/
theorem decodeAll_flashIdStub : decodeAll flashIdStub = some program := by decide +kernel

/-! ### What the blocks do -/

/-- The two pushed words, from address `a` on. -/
def pushes (a v ra : UInt32) : List Store := [.word a v, .word (a + 4) ra]

/-- The writes to the block of the SSI, in order. -/
def writes : List Store :=
  [.word Ssi.ssienr 0, .word Ssi.ctrlr0 0x00070000, .word Ssi.ctrlr1 0, .word Ssi.ssienr 1,
    .word Ssi.ser 1, .word Ssi.dr0 0x9f, .word Ssi.dr0 0, .word Ssi.dr0 0, .word Ssi.dr0 0]

/-- The stores of the result. -/
def results (id : UInt8 × UInt8 × UInt8) : List Store :=
  [.byte resultAddr id.1, .byte (resultAddr + 1) id.2.1, .byte (resultAddr + 2) id.2.2]

/-- The memory with the result. -/
def putId (m : Mem) (id : UInt8 × UInt8 × UInt8) : Mem :=
  ((m.writeBytes resultAddr [id.1]).writeBytes (resultAddr + 1) [id.2.1]).writeBytes
    (resultAddr + 2) [id.2.2]

section Blocks

variable {s : State Ssi}

theorem storeWord_ssi {a v : UInt32} (halign : a.toNat % 4 = 0) (hcov : ssi.covers a = true) :
    storeWord ssi s a v = some ((s.setDev s.dev).record (.word a v)) := by
  rw [storeWord_dev halign hcov]
  rfl

theorem loadWord_ssi {a : UInt32} (halign : a.toNat % 4 = 0) (hcov : ssi.covers a = true) :
    loadWord ssi s a = (Ssi.read s.dev a).map fun x => (x.1, s.setDev x.2) :=
  loadWord_dev halign hcov

theorem read_rxflr (w : UInt32) (ws fs : List UInt32) :
    Ssi.read ⟨w :: ws, fs⟩ (Ssi.base + 0x24) = some (w, ⟨ws, fs⟩) := (rfl)

theorem read_dr0 (f : UInt32) (ls fs : List UInt32) :
    Ssi.read ⟨ls, f :: fs⟩ (Ssi.base + 0x60) = some (f, ⟨ls, fs⟩) := (rfl)

theorem base_eq : (0x18 : UInt32) <<< UInt32.ofNat 24 = Ssi.base := by decide

theorem ctrlr0_eq : (7 : UInt32) <<< UInt32.ofNat 16 = 0x00070000 := by decide

theorem resultAddr_eq :
    (addWithCarry ((0x20 : UInt32) <<< UInt32.ofNat 24) 0x80 false).1 = resultAddr := by decide

theorem setup_execs (s : State Ssi) :
    ∃ t, execs ssi s setup = some t ∧ t.stores = s.stores ++ writes ∧ t.regs r0 = Ssi.base ∧
      (∀ r, r ≠ r0 → r ≠ r1 → r ≠ r2 → t.regs r = s.regs r) ∧ t.mem = s.mem ∧ t.dev = s.dev := by
  unfold setup
  -- run the block; the addresses become numbers as soon as r0 holds the base
  simp (disch := decide) only [execs_cons, resume_some, execs_nil, exec, base_eq, ctrlr0_eq,
    storeWord_ssi, State.setReg_regs_self, State.setReg_regs_of_ne, State.setNZ_regs,
    State.setCarry_regs, State.setDev_regs, State.record_regs, State.next_regs, Option.map_some]
  refine ⟨_, rfl, ?_, ?_, ?_, ?_, ?_⟩
  · simp [writes, Ssi.ssienr, Ssi.ctrlr0, Ssi.ctrlr1, Ssi.ser, Ssi.dr0]
  · simp (disch := decide)
  · intro r h₀ h₁ h₂
    simp [h₀, h₁, h₂]
  · simp
  · simp

theorem poll_execs {w : UInt32} {ws fs : List UInt32} (hbase : s.regs r0 = Ssi.base)
    (hdev : s.dev = ⟨w :: ws, fs⟩) :
    ∃ t, execs ssi s poll = some t ∧ t.stores = s.stores ∧ t.flags.c = decide (4 ≤ w) ∧
      (∀ r, r ≠ r2 → t.regs r = s.regs r) ∧ t.mem = s.mem ∧ t.dev = ⟨ws, fs⟩ := by
  unfold poll
  simp (disch := decide) only [execs_cons, resume_some, execs_nil, exec, hbase, hdev,
    loadWord_ssi, read_rxflr, State.setReg_regs_self, State.next_regs, Option.map_some]
  refine ⟨_, rfl, ?_, ?_, ?_, ?_, ?_⟩
  · simp
  · simp [carry_of_cmp]
  · intro r h₂
    simp [h₂]
  · simp
  · simp

theorem readId_execs {f₀ f₁ f₂ f₃ : UInt32} {ls fs : List UInt32} (hbase : s.regs r0 = Ssi.base)
    (hdev : s.dev = ⟨ls, f₀ :: f₁ :: f₂ :: f₃ :: fs⟩) :
    ∃ t, execs ssi s readId = some t ∧
      t.stores = s.stores ++ results (f₁.toUInt8, f₂.toUInt8, f₃.toUInt8) ∧
      t.mem = putId s.mem (f₁.toUInt8, f₂.toUInt8, f₃.toUInt8) ∧
      (∀ r, r ≠ r2 → r ≠ r4 → t.regs r = s.regs r) ∧ t.dev = ⟨ls, fs⟩ := by
  unfold readId
  simp (disch := decide) only [execs_cons, resume_some, execs_nil, exec, hbase, hdev,
    resultAddr_eq, loadWord_ssi, read_dr0, storeByte_mem, State.setReg_regs_self,
    State.setReg_regs_of_ne, State.setNZ_regs, State.setFlags_regs, State.setCarry_regs,
    State.setDev_regs, State.setMem_regs, State.record_regs, State.next_regs, State.setReg_dev,
    State.setNZ_dev, State.setFlags_dev, State.setCarry_dev, State.setDev_dev, State.setMem_dev,
    State.record_dev, State.next_dev, Option.map_some]
  refine ⟨_, rfl, ?_, ?_, ?_, ?_⟩
  · simp [results]
  · simp [putId]
  · intro r h₂ h₄
    simp [h₂, h₄]
  · simp

end Blocks

end Stub

end PicotoolRs
