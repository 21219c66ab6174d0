import Mathlib.Logic.Function.Basic
import PicotoolRs.Lib.Memory

/-!
# PicotoolRs.Lib.Thumb

A subset of the ARMv6-M instruction set: its encoding, and a machine that
executes it in Thread mode.

Beside the memory there is one memory-mapped device, whose registers are words.
What faults on the processor has no next state here: an access that is not
aligned, an instruction that is not in the subset, code in the device's range,
and a return to an address that does not stay in Thumb state. Every store is
recorded, in order, whether it goes to memory or to the device.
-/

namespace Lib.Thumb

/-- A register other than the program counter. -/
abbrev Reg := Fin 15

def r0 : Reg := 0

def r1 : Reg := 1

def r2 : Reg := 2

def r4 : Reg := 4

/-- The stack pointer. -/
def sp : Reg := 13

/-- The link register. -/
def lr : Reg := 14

/-! ### Flags and conditions -/

/-- The condition flags. -/
structure Flags where
  n : Bool
  z : Bool
  c : Bool
  v : Bool
  deriving Repr, DecidableEq

/-- The conditions of a branch. -/
inductive Cond
  | eq | ne | cs | cc | mi | pl | vs | vc | hi | ls | ge | lt | gt | le
  deriving Repr, DecidableEq

namespace Cond

/-- The condition with this number. -/
def ofField : Nat → Option Cond
  | 0 => some eq
  | 1 => some ne
  | 2 => some cs
  | 3 => some cc
  | 4 => some mi
  | 5 => some pl
  | 6 => some vs
  | 7 => some vc
  | 8 => some hi
  | 9 => some ls
  | 10 => some ge
  | 11 => some lt
  | 12 => some gt
  | 13 => some le
  | _ => none

/-- The condition holds. -/
def passed (f : Flags) : Cond → Bool
  | eq => f.z
  | ne => !f.z
  | cs => f.c
  | cc => !f.c
  | mi => f.n
  | pl => !f.n
  | vs => f.v
  | vc => !f.v
  | hi => f.c && !f.z
  | ls => !f.c || f.z
  | ge => f.n == f.v
  | lt => f.n != f.v
  | gt => !f.z && f.n == f.v
  | le => f.z || f.n != f.v

end Cond

/-- The sign bit. -/
def negative (x : UInt32) : Bool := 2 ^ 31 ≤ x.toNat

/-- Addition with a carry, as it sets the flags. -/
def addWithCarry (x y : UInt32) (carry : Bool) : UInt32 × Flags :=
  let sum := x.toNat + y.toNat + carry.toNat
  let r := UInt32.ofNat sum
  (r, { n := negative r, z := r = 0, c := 2 ^ 32 ≤ sum,
        v := negative x = negative y ∧ negative r ≠ negative x })

/-- A comparison sets the carry if there is no borrow. -/
theorem carry_of_cmp (x y : UInt32) : (addWithCarry x (~~~y) true).2.c = decide (y ≤ x) := by
  have hy := y.toNat_lt
  show decide _ = decide _
  refine decide_eq_decide.mpr ?_
  rw [UInt32.toNat_not, UInt32.le_iff_toNat_le]
  simp only [UInt32.size, Bool.toNat_true]
  omega

/-! ### Instructions -/

/-- The instructions of the subset. -/
inductive Instr
  | push (rs : List Reg)
  /-- The program counter is popped last, if at all. -/
  | pop (rs : List Reg) (pc : Bool)
  | movs (rd : Reg) (imm : UInt32)
  | cmp (rn : Reg) (imm : UInt32)
  | adds (rd : Reg) (imm : UInt32)
  | lsls (rd rm : Reg) (shift : Nat)
  | str (rt rn : Reg) (off : UInt32)
  | ldr (rt rn : Reg) (off : UInt32)
  | strb (rt rn : Reg) (off : UInt32)
  /-- The offset is from the address of the instruction. -/
  | b (cond : Cond) (off : UInt32)
  deriving Repr, DecidableEq

/-- The field of `n` bits from bit `lo` on. -/
def field (hw : UInt16) (lo n : Nat) : Nat := hw.toNat / 2 ^ lo % 2 ^ n

/-- The low register in the field at bit `lo`. -/
def low (hw : UInt16) (lo : Nat) : Reg := Fin.ofNat 15 (field hw lo 3)

/-- The low registers of a register list, in ascending order. -/
def regList (hw : UInt16) : List Reg :=
  ((List.range 8).filter fun i => hw.toNat.testBit i).map (Fin.ofNat 15)

/-- Decode a halfword. -/
def decode (hw : UInt16) : Option Instr :=
  let imm8 := UInt32.ofNat (field hw 0 8)
  match field hw 11 5 with
  | 0b00000 => some (.lsls (low hw 0) (low hw 3) (field hw 6 5))
  | 0b00100 => some (.movs (low hw 8) imm8)
  | 0b00101 => some (.cmp (low hw 8) imm8)
  | 0b00110 => some (.adds (low hw 8) imm8)
  | 0b01100 => some (.str (low hw 0) (low hw 3) (UInt32.ofNat (4 * field hw 6 5)))
  | 0b01101 => some (.ldr (low hw 0) (low hw 3) (UInt32.ofNat (4 * field hw 6 5)))
  | 0b01110 => some (.strb (low hw 0) (low hw 3) (UInt32.ofNat (field hw 6 5)))
  | 0b10110 =>
      -- bit 8 adds the link register
      let rs := regList hw ++ if field hw 8 1 = 1 then [lr] else []
      if field hw 9 2 = 0b10 ∧ rs ≠ [] then some (.push rs) else none
  | 0b10111 =>
      -- bit 8 adds the program counter
      let pc := field hw 8 1 = 1
      if field hw 9 2 = 0b10 ∧ (regList hw ≠ [] ∨ pc) then some (.pop (regList hw) pc) else none
  | 0b11010 | 0b11011 => do
      let cond ← Cond.ofField (field hw 8 4)
      -- the immediate counts halfwords from two instructions on
      let off := 2 * imm8 - if field hw 7 1 = 1 then 512 else 0
      return .b cond (off + 4)
  | _ => none

/-- Decode a sequence of bytes. -/
def decodeAll : List UInt8 → Option (List Instr)
  | [] => some []
  | [_] => none
  | b₀ :: b₁ :: bs => do
      let i ← decode (UInt16.ofNat (b₀.toNat + b₁.toNat * 2 ^ 8))
      return i :: (← decodeAll bs)

/-! ### The machine -/

/-- A store. -/
inductive Store
  | word (a v : UInt32)
  | byte (a : UInt32) (b : UInt8)
  deriving Repr, DecidableEq

namespace Store

/-- Where the store starts. -/
def addr : Store → UInt32
  | word a _ => a
  | byte a _ => a

/-- The store writes this address. -/
def Touches (x : UInt32) : Store → Prop
  | word a _ => Mem.InRange a 4 x
  | byte a _ => x = a

end Store

/-- A memory-mapped device with a state in `D`, whose registers are words. -/
structure Bus (D : Type) where
  /-- The addresses of the device. -/
  covers : UInt32 → Bool
  read : D → UInt32 → Option (UInt32 × D)
  write : D → UInt32 → UInt32 → Option D

/-- The state of the machine. -/
structure State (D : Type) where
  regs : Reg → UInt32
  pc : UInt32
  flags : Flags
  mem : Mem
  dev : D
  /-- The stores made so far. -/
  stores : List Store

variable {D : Type}

namespace State

def setReg (s : State D) (r : Reg) (v : UInt32) : State D :=
  { s with regs := Function.update s.regs r v }

/-- The program counter moves on to the next instruction. -/
def next (s : State D) : State D := { s with pc := s.pc + 2 }

/-- The flags after a move or shift that gave `v`. -/
def setNZ (s : State D) (v : UInt32) : State D :=
  { s with flags := { s.flags with n := negative v, z := v = 0 } }

def setFlags (s : State D) (f : Flags) : State D := { s with flags := f }

def setCarry (s : State D) (c : Bool) : State D := { s with flags := { s.flags with c := c } }

def setMem (s : State D) (m : Mem) : State D := { s with mem := m }

def setDev (s : State D) (dev : D) : State D := { s with dev }

/-- The store is recorded. -/
def record (s : State D) (w : Store) : State D := { s with stores := s.stores ++ [w] }

section Fields

variable (s : State D) (r : Reg) (v : UInt32) (f : Flags) (c : Bool) (m : Mem) (dev : D) (w : Store)

@[simp] theorem setReg_mem : (s.setReg r v).mem = s.mem := rfl
@[simp] theorem setReg_dev : (s.setReg r v).dev = s.dev := rfl
@[simp] theorem setReg_stores : (s.setReg r v).stores = s.stores := rfl
@[simp] theorem setReg_regs_self : (s.setReg r v).regs r = v := Function.update_self ..
@[simp] theorem setReg_regs_of_ne {q : Reg} (h : q ≠ r) : (s.setReg r v).regs q = s.regs q :=
  Function.update_of_ne h ..

@[simp] theorem next_pc : s.next.pc = s.pc + 2 := rfl
@[simp] theorem next_mem : s.next.mem = s.mem := rfl
@[simp] theorem next_dev : s.next.dev = s.dev := rfl
@[simp] theorem next_flags : s.next.flags = s.flags := rfl
@[simp] theorem next_stores : s.next.stores = s.stores := rfl
@[simp] theorem next_regs : s.next.regs = s.regs := rfl

@[simp] theorem setNZ_mem : (s.setNZ v).mem = s.mem := rfl
@[simp] theorem setNZ_dev : (s.setNZ v).dev = s.dev := rfl
@[simp] theorem setNZ_stores : (s.setNZ v).stores = s.stores := rfl
@[simp] theorem setNZ_regs : (s.setNZ v).regs = s.regs := rfl

@[simp] theorem setFlags_mem : (s.setFlags f).mem = s.mem := rfl
@[simp] theorem setFlags_dev : (s.setFlags f).dev = s.dev := rfl
@[simp] theorem setFlags_flags : (s.setFlags f).flags = f := rfl
@[simp] theorem setFlags_stores : (s.setFlags f).stores = s.stores := rfl
@[simp] theorem setFlags_regs : (s.setFlags f).regs = s.regs := rfl

@[simp] theorem setCarry_mem : (s.setCarry c).mem = s.mem := rfl
@[simp] theorem setCarry_dev : (s.setCarry c).dev = s.dev := rfl
@[simp] theorem setCarry_stores : (s.setCarry c).stores = s.stores := rfl
@[simp] theorem setCarry_regs : (s.setCarry c).regs = s.regs := rfl

@[simp] theorem setMem_mem : (s.setMem m).mem = m := rfl
@[simp] theorem setMem_dev : (s.setMem m).dev = s.dev := rfl
@[simp] theorem setMem_stores : (s.setMem m).stores = s.stores := rfl
@[simp] theorem setMem_regs : (s.setMem m).regs = s.regs := rfl

@[simp] theorem setDev_mem : (s.setDev dev).mem = s.mem := rfl
@[simp] theorem setDev_dev : (s.setDev dev).dev = dev := rfl
@[simp] theorem setDev_stores : (s.setDev dev).stores = s.stores := rfl
@[simp] theorem setDev_regs : (s.setDev dev).regs = s.regs := rfl

@[simp] theorem record_mem : (s.record w).mem = s.mem := rfl
@[simp] theorem record_dev : (s.record w).dev = s.dev := rfl
@[simp] theorem record_stores : (s.record w).stores = s.stores ++ [w] := rfl
@[simp] theorem record_regs : (s.record w).regs = s.regs := rfl

end Fields

end State

section Execution

variable (bus : Bus D)

/-- Load a word. -/
def loadWord (s : State D) (a : UInt32) : Option (UInt32 × State D) :=
  if a.toNat % 4 ≠ 0 then none
  else if bus.covers a then (bus.read s.dev a).map fun x => (x.1, s.setDev x.2)
  else some (s.mem.readWord a, s)

/-- Store a word. -/
def storeWord (s : State D) (a v : UInt32) : Option (State D) :=
  if a.toNat % 4 ≠ 0 then none
  else if bus.covers a then
    (bus.write s.dev a v).map fun dev => (s.setDev dev).record (.word a v)
  else some ((s.setMem (s.mem.writeWord a v)).record (.word a v))

/-- Store a byte; the device takes none. -/
def storeByte (s : State D) (a : UInt32) (b : UInt8) : Option (State D) :=
  if bus.covers a then none
  else some ((s.setMem (s.mem.writeBytes a [b])).record (.byte a b))

/-- Store registers at ascending addresses. -/
def storeRegs : State D → UInt32 → List Reg → Option (State D)
  | s, _, [] => some s
  | s, a, r :: rs => (storeWord bus s a (s.regs r)).bind fun s => storeRegs s (a + 4) rs

/-- Load registers from ascending addresses; the address after the last one is
returned as well. -/
def loadRegs : State D → UInt32 → List Reg → Option (UInt32 × State D)
  | s, a, [] => some (a, s)
  | s, a, r :: rs => (loadWord bus s a).bind fun x => loadRegs (x.2.setReg r x.1) (a + 4) rs

/-- Branch to a popped address, whose bit 0 selects the Thumb state. -/
def branchTo (s : State D) (v : UInt32) : Option (State D) :=
  if v &&& 1 = 0 then none else some { s with pc := v &&& ~~~1 }

/-- Execute an instruction. -/
def exec (s : State D) : Instr → Option (State D)
  | .push rs =>
      let base := s.regs sp - UInt32.ofNat (4 * rs.length)
      (storeRegs bus s base rs).map fun s => (s.setReg sp base).next
  | .pop rs false =>
      (loadRegs bus s (s.regs sp) rs).map fun x => (x.2.setReg sp x.1).next
  | .pop rs true =>
      (loadRegs bus s (s.regs sp) rs).bind fun x => (loadWord bus x.2 x.1).bind fun y =>
        branchTo (y.2.setReg sp (x.1 + 4)) y.1
  | .movs rd imm => some ((s.setReg rd imm).setNZ imm).next
  | .cmp rn imm => some (s.setFlags (addWithCarry (s.regs rn) (~~~imm) true).2).next
  | .adds rd imm =>
      let r := addWithCarry (s.regs rd) imm false
      some ((s.setReg rd r.1).setFlags r.2).next
  | .lsls rd rm shift =>
      let v := s.regs rm <<< UInt32.ofNat shift
      -- the carry is the last bit shifted out
      let c := if shift = 0 then s.flags.c else (s.regs rm).toNat.testBit (32 - shift)
      some (((s.setReg rd v).setNZ v).setCarry c).next
  | .str rt rn off => (storeWord bus s (s.regs rn + off) (s.regs rt)).map State.next
  | .ldr rt rn off =>
      (loadWord bus s (s.regs rn + off)).map fun x => (x.2.setReg rt x.1).next
  | .strb rt rn off => (storeByte bus s (s.regs rn + off) (s.regs rt).toUInt8).map State.next
  | .b cond off => some (if cond.passed s.flags then { s with pc := s.pc + off } else s.next)

/-- The instruction at the program counter. -/
def fetch (s : State D) : Option Instr :=
  if bus.covers s.pc ∨ s.pc.toNat % 2 ≠ 0 then none else decode (s.mem.readHalf s.pc)

/-- One step of the machine. -/
def step (s : State D) : Option (State D) := (fetch bus s).bind (exec bus s)

/-- Execute instructions in a row, wherever they are. -/
def execs (s : State D) (is : List Instr) : Option (State D) := is.foldlM (exec bus) s

/-- The machine gets from one state to another in some number of steps, and every
instruction it executes is at an address in `P`. -/
inductive Steps (P : UInt32 → Prop) : State D → State D → Prop
  | refl {s : State D} : Steps P s s
  | head {s t u : State D} : P s.pc → step bus s = some t → Steps P t u → Steps P s u

end Execution

end Lib.Thumb
