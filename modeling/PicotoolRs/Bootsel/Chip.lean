import PicotoolRs.Bootsel.Working
import PicotoolRs.Stub.Detect

/-!
# PicotoolRs.Bootsel.Chip

A board that works, down to the instructions of the stub.

Behind the protocol is NOR flash with a JEDEC id, and a core that executes code
from its entry to its return. What the stub leaves in memory is then not an
assumption about the board but the result of running its bytes
(`chip_identifies`).
-/

namespace PicotoolRs

open Lib Lib.Thumb Constants

/-- Where code returns to. -/
def returnAddress (s : State Ssi) : UInt32 := s.regs lr &&& ~~~1

/-- Code at an address is called, with memory `m`: on a stack that is clear of the
code and its result, and with a return address outside the code. The flash chip
answers the next command after some polling, with its id in the last three of
four frames. -/
structure Called (jedec : UInt8 × UInt8 × UInt8) (m : Nor.Memory) (addr : UInt32)
    (s : State Ssi) : Prop where
  pc : s.pc = addr
  mem : ∀ a, s.mem a = m a.toNat
  aligned : (s.regs sp).toNat % 4 = 0
  free : ∀ a, Stub.InFrame s a →
    ¬ Stub.InStub a ∧ ¬ Stub.InResult a ∧ ssi.covers a = false
  thumb : s.regs lr &&& 1 ≠ 0
  outside : ¬ Stub.InStub (returnAddress s)
  answers : ∃ ws w ls f₀ f₁ f₂ f₃ fs, (∀ x ∈ ws, x < 4) ∧ 4 ≤ w ∧
    s.dev = ⟨ws ++ w :: ls, f₀ :: f₁ :: f₂ :: f₃ :: fs⟩ ∧
    (f₁.toUInt8, f₂.toUInt8, f₃.toUInt8) = jedec

/-- The memory that code leaves. Stores do not reach flash. -/
def leftBy (m : Nor.Memory) (s : State Ssi) : Nor.Memory := fun a =>
  if InFlash a ∨ 2 ^ 32 ≤ a then m a else s.mem (UInt32.ofNat a)

/-- A board with a flash chip of this id and capacity. -/
def chip (jedec : UInt8 × UInt8 × UInt8) (capacity : Nat) : Board where
  capacity
  does
    | .erase addr size, m, m' => m' = Nor.erase m addr.toNat size.toNat
    | .write addr data, m, m' => m' = written m ⟨addr.toNat, data⟩
    | .exec addr, m, m' => ∃ s s', Called jedec m addr s ∧
        Steps ssi (· ≠ returnAddress s) s s' ∧ s'.pc = returnAddress s ∧ m' = leftBy m s'

variable {jedec : UInt8 × UInt8 × UInt8} {capacity : Nat} {m : Nor.Memory}

theorem chip_working : (chip jedec capacity).Working where
  erase h := h
  write h := h
  exec h a ha := by
    obtain ⟨s, s', -, -, -, rfl⟩ := h
    simp [leftBy, ha]
  canErase _ _ _ := ⟨_, rfl⟩
  canWrite _ _ _ := ⟨_, rfl⟩

/-! ### The stub on the core -/

/-- The stub is entered. -/
theorem Called.entered {s : State Ssi} (h : Called jedec m stubAddr s) (hstub : HoldsStub m) :
    Stub.Entered s where
  pc := h.pc
  stub := by
    intro i b hi
    have hlen : i < flashIdStub.length := (List.getElem?_eq_some_iff.mp hi).1
    have hlt : stubAddr.toNat + flashIdStub.length < 2 ^ 32 := by decide
    have haddr : (stubAddr + UInt32.ofNat i).toNat = stubAddr.toNat + i := by
      rw [UInt32.toNat_add, UInt32.toNat_ofNat', Nat.mod_eq_of_lt (a := i) (by omega),
        Nat.mod_eq_of_lt (by omega)]
    rw [h.mem, haddr]
    exact content_eq_iff.mp hstub _ _ ⟨Nat.le_add_right _ _, by simpa using hi⟩
  aligned := h.aligned
  free := h.free
  thumb := h.thumb

/-- The stub runs to its return. -/
theorem Called.returns {s : State Ssi} (h : Called jedec m stubAddr s) (hstub : HoldsStub m) :
    ∃ s', Steps ssi (· ≠ returnAddress s) s s' ∧ Stub.Returned s s' jedec := by
  obtain ⟨ws, w, ls, f₀, f₁, f₂, f₃, fs, hws, hw, hdev, rfl⟩ := h.answers
  obtain ⟨s', hreach, hret, -⟩ := Stub.returns (h.entered hstub) hws hw hdev
  refine ⟨s', hreach.mono fun a ha heq => ?_, hret⟩
  rw [heq] at ha
  exact h.outside ha

/-- A call that returned has left the id. -/
theorem content_of_returned {s s' : State Ssi} (h : Called jedec m stubAddr s)
    (hstub : HoldsStub m) (hsteps : Steps ssi (· ≠ returnAddress s) s s')
    (hpc : s'.pc = returnAddress s) : content (leftBy m s') resultAddr 3 = idBytes jedec := by
  obtain ⟨s₁, hsteps₁, hret⟩ := h.returns hstub
  obtain rfl := hsteps.unique hsteps₁ (by simp [hpc]) (by simp [hret.pc, returnAddress])
  have hresult : flashEnd.toNat ≤ resultAddr.toNat ∧ resultAddr.toNat + 3 < 2 ^ 32 := by decide
  have hbyte : ∀ k : UInt32, k.toNat < 3 →
      leftBy m s' (resultAddr.toNat + k.toNat) = s'.mem (resultAddr + k) := by
    intro k hk
    have hout : ¬ (InFlash (resultAddr.toNat + k.toNat) ∨ 2 ^ 32 ≤ resultAddr.toNat + k.toNat) := by
      rintro (hin | hin)
      · exact absurd hin.2 (by omega)
      · omega
    rw [leftBy, if_neg hout, UInt32.ofNat_add, UInt32.ofNat_toNat, UInt32.ofNat_toNat]
  have hfirst : s'.mem (resultAddr + 0) = jedec.1 := by
    rw [UInt32.add_zero, hret.manufacturer]
  have hcontent : content (leftBy m s') resultAddr 3 = [leftBy m s' (resultAddr.toNat + 0),
      leftBy m s' (resultAddr.toNat + 1), leftBy m s' (resultAddr.toNat + 2)] := rfl
  rw [hcontent, idBytes, ← hfirst, ← hret.memoryType, ← hret.capacity]
  exact congrArg₂ _ (hbyte 0 (by decide))
    (congrArg₂ _ (hbyte 1 (by decide)) (congrArg₂ _ (hbyte 2 (by decide)) rfl))

/-- A core on which the stub can be called. -/
def caller (jedec : UInt8 × UInt8 × UInt8) (m : Nor.Memory) : State Ssi where
  regs r := if r = sp then 0x20041000 else if r = lr then 0x00000401 else 0
  pc := stubAddr
  flags := ⟨false, false, false, false⟩
  mem a := m a.toNat
  dev := ⟨[4], [0, jedec.1.toUInt32, jedec.2.1.toUInt32, jedec.2.2.toUInt32]⟩
  stores := []

theorem called_caller (jedec : UInt8 × UInt8 × UInt8) (m : Nor.Memory) :
    Called jedec m stubAddr (caller jedec m) where
  pc := rfl
  mem _ := rfl
  aligned := Stub.entered_entry.aligned
  free := Stub.entered_entry.free
  thumb := Stub.entered_entry.thumb
  outside := by
    intro hin
    have hstub := (Mem.inRange_iff (by decide)).mp hin
    have hret : ((0x00000401 : UInt32) &&& ~~~1).toNat < stubAddr.toNat := by decide
    exact absurd hstub.1 (not_le.mpr hret)
  answers := ⟨[], 4, [], 0, _, _, _, [], by simp, by decide, rfl, by simp⟩

/-- The board runs the stub to its end, and what it leaves is the id of the
flash. -/
theorem chip_identifies : (chip jedec capacity).Identifies jedec where
  able m hstub := by
    obtain ⟨s', hsteps, hret⟩ := (called_caller jedec m).returns hstub
    exact ⟨_, _, s', called_caller jedec m, hsteps, hret.pc, rfl⟩
  result m m' hstub h := by
    obtain ⟨s, s', hcalled, hsteps, hpc, rfl⟩ := h
    exact content_of_returned hcalled hstub hsteps hpc

end PicotoolRs
