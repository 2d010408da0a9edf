import Mathlib.Data.Int.Init
import Mathlib.Tactic.NormNum

/-! Unsigned 64-bit sizes and signed 32-bit integers, with the wrap-around of each
operation written out and the ranges on which nothing wraps. Sizes are naturals
below `2^64`; a narrowed value is an integer in `[-2^31, 2^31)`. -/
namespace MachineWord

abbrev Byte := UInt8

def sizeAdd (a b : ℕ) : ℕ := (a + b) % 2 ^ 64

def sizeSub (a b : ℕ) : ℕ := (a + (2 ^ 64 - b % 2 ^ 64)) % 2 ^ 64

/-- Conversion of a size to a 32-bit `int`. -/
def narrow (n : ℕ) : ℤ := Int.bmod n (2 ^ 32)

/-- Conversion of a signed value back to a size: negative values wrap to the top. -/
def widen (i : ℤ) : ℕ := (i % 2 ^ 64).toNat

theorem sizeAdd_of_lt {a b : ℕ} (h : a + b < 2 ^ 64) : sizeAdd a b = a + b :=
  Nat.mod_eq_of_lt h

theorem sizeSub_of_le {a b : ℕ} (h : b ≤ a) (ha : a < 2 ^ 64) : sizeSub a b = a - b := by
  have hb : b % 2 ^ 64 = b := Nat.mod_eq_of_lt (by omega)
  rw [sizeSub, hb]
  have split : a + (2 ^ 64 - b) = (a - b) + 2 ^ 64 := by omega
  rw [split, Nat.add_mod_right]
  exact Nat.mod_eq_of_lt (by omega)

theorem narrow_of_lt {n : ℕ} (h : n < 2 ^ 31) : narrow n = n :=
  Int.bmod_eq_of_le (by omega) (by omega)

theorem widen_natCast {n : ℕ} (h : n < 2 ^ 64) : widen n = n := by
  have small : (n : ℤ) % 2 ^ 64 = n := Int.emod_eq_of_lt (by omega) (by exact_mod_cast h)
  rw [widen, small, Int.toNat_natCast]

theorem widen_narrow {n : ℕ} (h : n < 2 ^ 31) : widen (narrow n) = n := by
  rw [narrow_of_lt h]
  exact widen_natCast (by omega)

/-- An `int` survives its way through a size. -/
theorem narrow_widen {n : ℤ} (low : -2 ^ 31 ≤ n) (high : n < 2 ^ 31) : narrow (widen n) = n := by
  unfold narrow widen
  rw [Int.bmod_def]
  omega

theorem narrow_range (n : ℕ) : -2 ^ 31 ≤ narrow n ∧ narrow n < 2 ^ 31 := by
  have positive := Nat.two_pow_pos 32
  have low := Int.le_bmod (x := n) positive
  have high := Int.bmod_lt (x := n) positive
  unfold narrow
  omega

theorem narrow_le (n : ℕ) : narrow n ≤ n := by
  by_cases small : n < 2 ^ 31
  · exact (narrow_of_lt small).le
  · have below := (narrow_range n).2
    omega

theorem sizeAdd_widen (n : ℕ) (i : ℤ) : (sizeAdd n (widen i) : ℤ) = (n + i) % 2 ^ 64 := by
  unfold sizeAdd widen
  omega

theorem sizeAdd_comm (a b : ℕ) : sizeAdd a b = sizeAdd b a := by
  rw [sizeAdd, Nat.add_comm, sizeAdd]

theorem land_sixteens {x : ℕ} (h : x < 2 ^ 64) : x &&& (2 ^ 64 - 16) = x / 16 * 16 := by
  have mask : 2 ^ 64 - 16 = (2 ^ 60 - 1) <<< 4 := by decide
  have shifted : x / 16 * 16 = (x >>> 4) <<< 4 := by
    rw [Nat.shiftLeft_eq, Nat.shiftRight_eq_div_pow]
  rw [mask, shifted]
  apply Nat.eq_of_testBit_eq
  intro i
  rw [Nat.testBit_and, Nat.testBit_shiftLeft, Nat.testBit_shiftLeft, Nat.testBit_shiftRight,
    Nat.testBit_two_pow_sub_one]
  by_cases low : 4 ≤ i
  · rw [Nat.add_sub_cancel' low]
    by_cases high : i < 64
    · have inside : i - 4 < 60 := by omega
      simp [low, inside]
    · have zero : x.testBit i = false := by
        apply Nat.testBit_lt_two_pow
        exact Nat.lt_of_lt_of_le h (Nat.pow_le_pow_right (by decide) (by omega))
      simp [zero]
  · simp [low]

end MachineWord
