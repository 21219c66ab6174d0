import Mathlib.Data.Nat.Bitwise
import Mathlib.Order.Defs.LinearOrder

/-!
# PicotoolRs.Lib.U32

Unsigned 32-bit arithmetic as a systems language has it.

`add` and `sub` are the checked operators: `none` is the overflow that panics.
Where they succeed they agree with the wrapping operators, so a proof that they
never return `none` covers a build without overflow checks as well. `ofUsize`
is the narrowing cast, which truncates silently.

Everything is characterised through `toNat`; later proofs are linear arithmetic
over `Nat`.
-/

namespace Lib.U32

/-- Machine words are ordered by their values. -/
instance instLinearOrder : LinearOrder UInt32 where
  le_refl := UInt32.le_refl
  le_trans _ _ _ := UInt32.le_trans
  le_antisymm _ _ := UInt32.le_antisymm
  le_total := UInt32.le_total
  lt_iff_le_not_ge a b := by
    simp only [UInt32.lt_iff_toNat_lt, UInt32.le_iff_toNat_le]
    omega
  toDecidableLE := inferInstance

theorem toNat_max (a b : UInt32) : (max a b).toNat = max a.toNat b.toNat := by
  rcases le_total a b with h | h
  · rw [max_eq_right h, max_eq_right (UInt32.le_iff_toNat_le.mp h)]
  · rw [max_eq_left h, max_eq_left (UInt32.le_iff_toNat_le.mp h)]

/-- Checked addition. -/
def add (a b : UInt32) : Option UInt32 :=
  if a.toNat + b.toNat < 2 ^ 32 then some (a + b) else none

/-- Checked subtraction. -/
def sub (a b : UInt32) : Option UInt32 :=
  if b.toNat ≤ a.toNat then some (a - b) else none

/-- The narrowing cast. -/
def ofUsize (n : Nat) : UInt32 := UInt32.ofNat n

/-- The four bytes, least significant first. -/
def toLeBytes (x : UInt32) : List UInt8 :=
  [UInt8.ofNat x.toNat, UInt8.ofNat (x.toNat / 2 ^ 8), UInt8.ofNat (x.toNat / 2 ^ 16),
    UInt8.ofNat (x.toNat / 2 ^ 24)]

/-- The word with the given bytes, least significant first. -/
def fromLeBytes (b₀ b₁ b₂ b₃ : UInt8) : UInt32 :=
  UInt32.ofNat (b₀.toNat + b₁.toNat * 2 ^ 8 + b₂.toNat * 2 ^ 16 + b₃.toNat * 2 ^ 24)

theorem add_eq_some_iff {a b c : UInt32} : add a b = some c ↔ c.toNat = a.toNat + b.toNat := by
  have hc := c.toNat_lt
  unfold add
  split
  · next h =>
    rw [Option.some.injEq, ← UInt32.toNat_inj, UInt32.toNat_add, Nat.mod_eq_of_lt h]
    exact eq_comm
  · next h =>
    constructor
    · intro hn
      exact absurd hn (by simp)
    · intro hn
      omega

theorem add_eq_none_iff {a b : UInt32} : add a b = none ↔ 2 ^ 32 ≤ a.toNat + b.toNat := by
  unfold add
  split <;> simp <;> omega

theorem toNat_ofUsize {n : Nat} (h : n < 2 ^ 32) : (ofUsize n).toNat = n := by
  rw [ofUsize, UInt32.toNat_ofNat', Nat.mod_eq_of_lt h]

@[simp] theorem length_toLeBytes (x : UInt32) : (toLeBytes x).length = 4 := rfl

/-- Reading back the bytes of a word gives the word. -/
theorem fromLeBytes_toLeBytes (x : UInt32) {b₀ b₁ b₂ b₃ : UInt8}
    (h : toLeBytes x = [b₀, b₁, b₂, b₃]) : fromLeBytes b₀ b₁ b₂ b₃ = x := by
  have hx := x.toNat_lt
  simp only [toLeBytes, List.cons.injEq] at h
  obtain ⟨rfl, rfl, rfl, rfl, -⟩ := h
  rw [← UInt32.toNat_inj, fromLeBytes]
  simp only [UInt8.toNat_ofNat', UInt32.toNat_ofNat']
  omega

/-- The bytes of the word read from four bytes are those bytes. -/
theorem toLeBytes_fromLeBytes (b₀ b₁ b₂ b₃ : UInt8) :
    toLeBytes (fromLeBytes b₀ b₁ b₂ b₃) = [b₀, b₁, b₂, b₃] := by
  have h₀ := b₀.toNat_lt
  have h₁ := b₁.toNat_lt
  have h₂ := b₂.toNat_lt
  have h₃ := b₃.toNat_lt
  have hx : (fromLeBytes b₀ b₁ b₂ b₃).toNat =
      b₀.toNat + b₁.toNat * 2 ^ 8 + b₂.toNat * 2 ^ 16 + b₃.toNat * 2 ^ 24 := by
    rw [fromLeBytes, UInt32.toNat_ofNat']
    omega
  simp only [toLeBytes, hx, List.cons.injEq, ← UInt8.toNat_inj, UInt8.toNat_ofNat', and_true]
  omega

/-- Masking with the complement of `2 ^ k - 1` rounds down to a multiple of
`2 ^ k`. -/
theorem toNat_and_not_mask (x mask : UInt32) {k : Nat} (hmask : mask.toNat = 2 ^ k - 1) :
    (x &&& ~~~mask).toNat = x.toNat / 2 ^ k * 2 ^ k := by
  have hx := x.toNat_lt
  have hm := mask.toNat_lt
  rw [UInt32.toNat_and, UInt32.toNat_not, ← Nat.shiftRight_eq_div_pow, ← Nat.shiftLeft_eq]
  refine Nat.eq_of_testBit_eq fun i => ?_
  have hsub : UInt32.size - 1 - mask.toNat = 2 ^ 32 - (mask.toNat + 1) := by
    simp only [UInt32.size]
    omega
  rw [Nat.testBit_and, hsub, Nat.testBit_two_pow_sub_succ hm, hmask, Nat.testBit_two_pow_sub_one,
    Nat.testBit_shiftLeft, Nat.testBit_shiftRight]
  by_cases hi : i < 32
  · by_cases hk : i < k
    · simp [hi, hk, Nat.not_le.mpr hk]
    · simp [hi, hk, Nat.le_of_not_lt hk]
  · have hbit : x.toNat.testBit i = false :=
      Nat.testBit_lt_two_pow (hx.trans_le (Nat.pow_le_pow_right (by decide) (Nat.le_of_not_lt hi)))
    by_cases hk : i < k
    · simp [hbit, Nat.not_le.mpr hk]
    · simp [hbit, Nat.le_of_not_lt hk]

end Lib.U32
