import Mathlib.Data.Int.CardIntervalMod
import Mathlib.Data.List.Nodup

/-! Taking the items of a list in turn, over and over. -/
namespace RoundRobin

variable {α : Type*} {xs : List α} {a b : α} {n i k m : ℕ}

def advance (n i : ℕ) : ℕ := if n ≤ i + 1 then 0 else i + 1

theorem advance_mod (positive : 0 < n) (k : ℕ) : advance n (k % n) = (k + 1) % n := by
  have inside : k % n < n := Nat.mod_lt k positive
  have sum : (k + 1) % n = (k % n + 1) % n := (Nat.mod_add_mod k n 1).symm
  unfold advance
  split_ifs with last
  · have full : k % n + 1 = n := Nat.le_antisymm inside last
    rw [sum, full, Nat.mod_self]
  · rw [sum, Nat.mod_eq_of_lt (Nat.lt_of_not_le last)]

/-- The item whose turn is the `k`-th. -/
def turn (xs : List α) (k : ℕ) : Option α := xs[k % xs.length]?

theorem turn_mem (h : turn xs k = some a) : a ∈ xs := List.mem_of_getElem? h

theorem turn_iff (nodup : xs.Nodup) (at_ : xs[i]? = some a) :
    turn xs k = some a ↔ k ≡ i [MOD xs.length] := by
  obtain ⟨inside, rfl⟩ := List.getElem?_eq_some_iff.mp at_
  have below : k % xs.length < xs.length := Nat.mod_lt k (Nat.zero_lt_of_lt inside)
  rw [turn, List.getElem?_eq_getElem below, Option.some.injEq, nodup.getElem_inj_iff, Nat.ModEq,
    Nat.mod_eq_of_lt inside]

variable [DecidableEq α]

def turns (xs : List α) (a : α) (m : ℕ) : ℕ := Nat.count (fun k => turn xs k = some a) m

theorem turns_eq (nodup : xs.Nodup) (at_ : xs[i]? = some a) :
    turns xs a m = m / xs.length + if i < m % xs.length then 1 else 0 := by
  have inside : i < xs.length := (List.getElem?_eq_some_iff.mp at_).1
  have same : turns xs a m = m.count (· ≡ i [MOD xs.length]) := by
    unfold turns
    congr
    funext k
    exact propext (turn_iff nodup at_)
  rw [same, Nat.count_modEq_card m (Nat.zero_lt_of_lt inside) i, Nat.mod_eq_of_lt inside]

/-- No item is more than one turn ahead of another. -/
theorem turns_balanced (nodup : xs.Nodup) (ha : a ∈ xs) (hb : b ∈ xs) :
    turns xs a m ≤ turns xs b m + 1 := by
  obtain ⟨i, hi⟩ := List.mem_iff_getElem?.mp ha
  obtain ⟨j, hj⟩ := List.mem_iff_getElem?.mp hb
  rw [turns_eq nodup hi, turns_eq nodup hj]
  split_ifs <;> omega

end RoundRobin
