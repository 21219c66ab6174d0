import Mathlib.Data.Nat.Bitwise
import PicotoolRs.Constants

/-!
# PicotoolRs.Detect

Decoding a JEDEC RDID response into a flash size (`detect.rs`), and the bounds
every decoded size obeys.
-/

namespace PicotoolRs

open Constants

/-- `1u32.checked_shl(n)`: none when the shift is 32 bits or more. -/
def oneCheckedShl (n : UInt32) : Option UInt32 :=
  if n.toNat < 32 then some (1 <<< n) else none

/-- Decode `[manufacturer, memory_type, capacity]` into a flash size in bytes;
none when the size is outside the accepted range. -/
def flashSizeFromJedec (id : UInt8 × UInt8 × UInt8) : Option UInt32 := do
  let capacity := id.2.2
  let size ← oneCheckedShl capacity.toUInt32
  if minDetectedFlashSize ≤ size ∧ size ≤ maxDetectedFlashSize then some size else none

theorem toNat_of_oneCheckedShl {n size : UInt32} (h : oneCheckedShl n = some size) :
    n.toNat < 32 ∧ size.toNat = 2 ^ n.toNat := by
  unfold oneCheckedShl at h
  split at h
  · next hn =>
    obtain rfl := Option.some.inj h
    refine ⟨hn, ?_⟩
    have hpow : 2 ^ n.toNat < 2 ^ 32 := Nat.pow_lt_pow_right (by decide) hn
    rw [UInt32.toNat_shiftLeft, Nat.mod_eq_of_lt hn, Nat.shiftLeft_eq]
    simpa using hpow
  · exact absurd h (by simp)

/-- The size that a capacity byte stands for: two to its power, from 64 KiB to
16 MiB. -/
def capacitySize (capacity : UInt8) : Option UInt32 :=
  if 16 ≤ capacity.toNat ∧ capacity.toNat ≤ 24 then some (UInt32.ofNat (2 ^ capacity.toNat))
  else none

/-- Decoding an id is decoding its capacity byte. -/
theorem flashSizeFromJedec_eq (id : UInt8 × UInt8 × UInt8) :
    flashSizeFromJedec id = capacitySize id.2.2 := by
  have hbind : flashSizeFromJedec id = (oneCheckedShl id.2.2.toUInt32).bind fun size =>
      if minDetectedFlashSize ≤ size ∧ size ≤ maxDetectedFlashSize then some size else none := rfl
  rw [hbind, capacitySize]
  cases hshl : oneCheckedShl id.2.2.toUInt32 with
  | none =>
      -- a shift by 32 bits or more
      have hbig : ¬ id.2.2.toUInt32.toNat < 32 := fun hlt => by
        rw [oneCheckedShl, if_pos hlt] at hshl
        simp at hshl
      rw [UInt8.toNat_toUInt32] at hbig
      rw [Option.bind_none, if_neg (by omega)]
  | some size =>
      obtain ⟨hlt, hsize⟩ := toNat_of_oneCheckedShl hshl
      rw [UInt8.toNat_toUInt32] at hlt hsize
      have hpow : 2 ^ id.2.2.toNat < 2 ^ 32 := Nat.pow_lt_pow_right (by decide) hlt
      have heq : size = UInt32.ofNat (2 ^ id.2.2.toNat) := by
        rw [← UInt32.toNat_inj, hsize, UInt32.toNat_ofNat_of_lt' hpow]
      have hlo : minDetectedFlashSize ≤ size ↔ 16 ≤ id.2.2.toNat := by
        rw [UInt32.le_iff_toNat_le, hsize]
        exact Nat.pow_le_pow_iff_right (a := 2) (n := 16) (by decide)
      have hhi : size ≤ maxDetectedFlashSize ↔ id.2.2.toNat ≤ 24 := by
        rw [UInt32.le_iff_toNat_le, hsize]
        exact Nat.pow_le_pow_iff_right (a := 2) (m := 24) (by decide)
      rw [Option.bind_some, ← heq]
      simp only [hlo, hhi]

/-- A decoded size is a power of two from 64 KiB to 16 MiB. -/
theorem flashSizeFromJedec_eq_some {id : UInt8 × UInt8 × UInt8} {size : UInt32}
    (h : flashSizeFromJedec id = some size) :
    ∃ k, 16 ≤ k ∧ k ≤ 24 ∧ size.toNat = 2 ^ k := by
  rw [flashSizeFromJedec_eq, capacitySize] at h
  split at h
  · next hcap =>
    obtain rfl := Option.some.inj h
    have hpow : 2 ^ id.2.2.toNat < 2 ^ 32 :=
      Nat.pow_lt_pow_right (by decide) (hcap.2.trans_lt (by decide))
    exact ⟨_, hcap.1, hcap.2, UInt32.toNat_ofNat_of_lt' hpow⟩
  · simp at h

/-- A decoded size is a positive whole number of sectors that fits the XIP
window. -/
theorem flashSizeFromJedec_sectors {id : UInt8 × UInt8 × UInt8} {size : UInt32}
    (h : flashSizeFromJedec id = some size) :
    0 < size.toNat ∧ size.toNat ≤ 2 ^ 24 ∧ 4096 ∣ size.toNat := by
  obtain ⟨k, hlo, hhi, hsize⟩ := flashSizeFromJedec_eq_some h
  rw [hsize]
  exact ⟨Nat.pow_pos (by decide), Nat.pow_le_pow_right (by decide) hhi,
    Nat.pow_dvd_pow 2 (show 12 ≤ k by omega)⟩

end PicotoolRs
