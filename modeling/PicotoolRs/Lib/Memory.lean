import PicotoolRs.Lib.U32

/-!
# PicotoolRs.Lib.Memory

A byte-addressed memory of 32-bit addresses.

The address space is a ring: a range goes on at zero after the last address. An
address is in a range by its distance from the start, so that nothing has to be
said about ranges that wrap.
-/

namespace Lib

/-- A memory. -/
abbrev Mem := UInt32 → UInt8

namespace Mem

/-- The address is one of the `n` from `base` on. -/
def InRange (base : UInt32) (n : Nat) (a : UInt32) : Prop := (a - base).toNat < n

instance (base : UInt32) (n : Nat) (a : UInt32) : Decidable (InRange base n a) :=
  inferInstanceAs (Decidable (_ < _))

/-- The memory with the bytes at `base`. -/
def writeBytes (m : Mem) (base : UInt32) (bs : List UInt8) : Mem := fun a =>
  (bs[(a - base).toNat]?).getD (m a)

/-- The memory with the word at `a`, least significant byte first. -/
def writeWord (m : Mem) (a v : UInt32) : Mem := m.writeBytes a (U32.toLeBytes v)

/-- The word at `a`. -/
def readWord (m : Mem) (a : UInt32) : UInt32 :=
  U32.fromLeBytes (m a) (m (a + 1)) (m (a + 2)) (m (a + 3))

/-- The halfword at `a`. -/
def readHalf (m : Mem) (a : UInt32) : UInt16 :=
  UInt16.ofNat ((m a).toNat + (m (a + 1)).toNat * 2 ^ 8)

/-- The bytes are in memory from `base` on. -/
def Holds (m : Mem) (base : UInt32) (bs : List UInt8) : Prop :=
  ∀ i b, bs[i]? = some b → m (base + UInt32.ofNat i) = b

variable {m m' : Mem} {base a : UInt32} {bs : List UInt8}

theorem add_sub_self (a b : UInt32) : a + b - a = b := by
  rw [UInt32.add_comm, UInt32.add_sub_cancel]

/-- Outside the range the memory is as it was. -/
theorem writeBytes_of_not_inRange (h : ¬ InRange base bs.length a) :
    m.writeBytes base bs a = m a := by
  rw [writeBytes, List.getElem?_eq_none (Nat.le_of_not_lt h), Option.getD_none]

/-- In the range it is what was written. -/
theorem writeBytes_add {i : Nat} {b : UInt8} (hi : i < 2 ^ 32) (h : bs[i]? = some b) :
    m.writeBytes base bs (base + UInt32.ofNat i) = b := by
  rw [writeBytes, add_sub_self, UInt32.toNat_ofNat', Nat.mod_eq_of_lt hi, h, Option.getD_some]

theorem writeWord_of_not_inRange {v : UInt32} (h : ¬ InRange base 4 a) :
    m.writeWord base v a = m a :=
  writeBytes_of_not_inRange h

/-- Reading back a word. -/
@[simp] theorem readWord_writeWord (m : Mem) (a v : UInt32) : (m.writeWord a v).readWord a = v := by
  have hbyte : ∀ i b, i < 2 ^ 32 → (U32.toLeBytes v)[i]? = some b →
      m.writeWord a v (a + UInt32.ofNat i) = b := fun i b hi h => writeBytes_add hi h
  have h₀ := hbyte 0 _ (by decide) rfl
  have h₁ := hbyte 1 _ (by decide) rfl
  have h₂ := hbyte 2 _ (by decide) rfl
  have h₃ := hbyte 3 _ (by decide) rfl
  rw [show a + UInt32.ofNat 0 = a from UInt32.add_zero a] at h₀
  change m.writeWord a v (a + 1) = _ at h₁
  change m.writeWord a v (a + 2) = _ at h₂
  change m.writeWord a v (a + 3) = _ at h₃
  rw [readWord, h₀, h₁, h₂, h₃]
  exact U32.fromLeBytes_toLeBytes v rfl

/-- A word is read from its four bytes. -/
theorem readWord_congr (h : ∀ x, InRange a 4 x → m x = m' x) : m.readWord a = m'.readWord a := by
  have hoff : ∀ k : UInt32, k.toNat < 4 → m (a + k) = m' (a + k) := fun k hk =>
    h _ (by rw [InRange, add_sub_self]; exact hk)
  have h₀ : m a = m' a := h _ (by rw [InRange, UInt32.sub_self]; decide)
  rw [readWord, readWord, h₀, hoff 1 (by decide), hoff 2 (by decide), hoff 3 (by decide)]

theorem readHalf_congr (h : ∀ x, InRange a 2 x → m x = m' x) : m.readHalf a = m'.readHalf a := by
  have h₀ : m a = m' a := h _ (by rw [InRange, UInt32.sub_self]; decide)
  have h₁ : m (a + 1) = m' (a + 1) := h _ (by rw [InRange, add_sub_self]; decide)
  rw [readHalf, readHalf, h₀, h₁]

/-- A part of a range. -/
theorem InRange.of_add {k : UInt32} {n n' : Nat} (hn : k.toNat + n' ≤ n) (hle : n ≤ 2 ^ 32)
    (h : InRange (base + k) n' a) : InRange base n a := by
  have hsplit : a - base = a - (base + k) + k := by
    grind
  unfold InRange at h ⊢
  rw [hsplit, UInt32.toNat_add, Nat.mod_eq_of_lt (by omega)]
  omega

/-- A range and one that starts behind it. -/
theorem InRange.not_add {k : UInt32} {n n' : Nat} (hk : n ≤ k.toNat)
    (hle : k.toNat + n' ≤ 2 ^ 32) (h : InRange base n a) : ¬ InRange (base + k) n' a := by
  intro h'
  have hsplit : a - base = a - (base + k) + k := by
    grind
  unfold InRange at h h'
  rw [hsplit, UInt32.toNat_add, Nat.mod_eq_of_lt (by omega)] at h
  omega

/-- A range that does not wrap is an interval. -/
theorem inRange_iff {n : Nat} (hfits : base.toNat + n ≤ 2 ^ 32) :
    InRange base n a ↔ base.toNat ≤ a.toNat ∧ a.toNat < base.toNat + n := by
  have ha := a.toNat_lt
  have hb := base.toNat_lt
  rw [InRange, UInt32.toNat_sub]
  omega

end Mem

end Lib
