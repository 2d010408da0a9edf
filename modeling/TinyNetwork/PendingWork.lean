import Mathlib.Algebra.BigOperators.Group.Finset.Piecewise
import Mathlib.Algebra.GroupWithZero.Nat
import Mathlib.Algebra.Order.BigOperators.Group.Finset
import Mathlib.Data.Fintype.BigOperators
import Mathlib.Tactic.Abel

/-! Work that several agents still have to do: a list of entries for each of them. Entries
are weighed to count what they hold, and an agent's list is covered when whatever an entry
uses is still held by a later entry of the same list. -/
namespace PendingWork

variable {Λ α κ : Type*}

section Weights
variable {w : α → ℕ} {xs ys : List α}

def load (w : α → ℕ) (xs : List α) : ℕ := (xs.map w).sum

@[simp] theorem load_nil : load w [] = 0 := rfl

@[simp] theorem load_cons (a : α) : load w (a :: xs) = w a + load w xs := by simp [load]

@[simp] theorem load_append : load w (xs ++ ys) = load w xs + load w ys := by simp [load]

theorem load_eq_zero (h : ∀ a ∈ xs, w a = 0) : load w xs = 0 := by
  induction xs with
  | nil => rfl
  | cons a xs ih =>
    rw [load_cons, h a List.mem_cons_self, ih fun b hb => h b (List.mem_cons_of_mem a hb)]

theorem load_map {β : Type*} {v : β → ℕ} {f : β → α} (same : ∀ b, w (f b) = v b)
    (bs : List β) : load w (bs.map f) = load v bs := by
  induction bs with
  | nil => rfl
  | cons b bs ih => rw [List.map_cons, load_cons, load_cons, same, ih]

theorem load_pos : 0 < load w xs ↔ ∃ a ∈ xs, 0 < w a := by
  induction xs with
  | nil => simp
  | cons a xs ih =>
    rw [load_cons, Nat.add_pos_iff_pos_or_pos, ih]
    simp

variable [Fintype Λ] {g : Λ → List α}

def tally (w : α → ℕ) (g : Λ → List α) : ℕ := ∑ l, load w (g l)

theorem tally_pos : 0 < tally w g ↔ ∃ l, ∃ a ∈ g l, 0 < w a := by
  simp only [tally, Finset.sum_pos_iff, Finset.mem_univ, true_and, load_pos]

theorem load_le_tally (l : Λ) : load w (g l) ≤ tally w g :=
  Finset.single_le_sum (f := fun l => load w (g l)) (fun _ _ => Nat.zero_le _) (Finset.mem_univ l)

theorem sum_update {β M : Type*} [AddCommMonoid M] [DecidableEq Λ] (f : β → M) (h : Λ → β)
    (l : Λ) (b : β) :
    ∑ j, f (Function.update h l b j) + f (h l) = ∑ j, f (h j) + f b := by
  have others : ∑ j ∈ Finset.univ.erase l, f (Function.update h l b j) =
      ∑ j ∈ Finset.univ.erase l, f (h j) := by
    refine Finset.sum_congr rfl fun j hj => ?_
    rw [Function.update_of_ne (Finset.ne_of_mem_erase hj)]
  rw [← Finset.add_sum_erase _ _ (Finset.mem_univ l), others,
    ← Finset.add_sum_erase _ (fun j => f (h j)) (Finset.mem_univ l), Function.update_self]
  abel

theorem tally_update [DecidableEq Λ] (w : α → ℕ) (g : Λ → List α) (l : Λ) (xs : List α) :
    tally w (Function.update g l xs) + load w (g l) = tally w g + load w xs :=
  sum_update (load w) g l xs

theorem tally_snoc [DecidableEq Λ] (w : α → ℕ) (g : Λ → List α) (l : Λ) (a : α) :
    tally w (Function.update g l (g l ++ [a])) = tally w g + w a := by
  have moved := tally_update w g l (g l ++ [a])
  rw [load_append, load_cons, load_nil] at moved
  omega

theorem tally_prepend [DecidableEq Λ] (w : α → ℕ) (g : Λ → List α) (l : Λ) (xs : List α) :
    tally w (Function.update g l (xs ++ g l)) = tally w g + load w xs := by
  have moved := tally_update w g l (xs ++ g l)
  rw [load_append] at moved
  omega

theorem tally_clear [DecidableEq Λ] (w : α → ℕ) (g : Λ → List α) (l : Λ) :
    tally w (Function.update g l []) + load w (g l) = tally w g := by
  rw [tally_update, load_nil, Nat.add_zero]

theorem tally_of_nil (idle : ∀ l, g l = []) : tally w g = 0 :=
  Finset.sum_eq_zero fun l _ => by rw [idle l, load_nil]

end Weights

theorem forall_update [DecidableEq Λ] {P : Λ → List α → Prop} {g : Λ → List α} {l : Λ}
    {xs : List α} (old : ∀ j, P j (g j)) (here : P l xs) : ∀ j, P j (Function.update g l xs j) :=
  (Function.forall_update_iff g P).mpr ⟨here, fun j _ => old j⟩

section Cover
variable {uses holds : α → κ → Prop} {xs ys : List α} {a : α} {k : κ}

def Covered (uses holds : α → κ → Prop) : List α → Prop
  | [] => True
  | a :: rest => (∀ k, uses a k → ∃ b ∈ rest, holds b k) ∧ Covered uses holds rest

theorem covered_append (h : Covered uses holds ys)
    (front : ∀ a ∈ xs, ∀ k, uses a k → ∃ b ∈ ys, holds b k) : Covered uses holds (xs ++ ys) := by
  induction xs with
  | nil => exact h
  | cons a xs ih =>
    refine ⟨fun k hk => ?_, ih fun b hb => front b (List.mem_cons_of_mem a hb)⟩
    obtain ⟨b, hb, held⟩ := front a List.mem_cons_self k hk
    exact ⟨b, List.mem_append_right xs hb, held⟩

theorem Covered.held (h : Covered uses holds xs) (ha : a ∈ xs) (hk : uses a k) :
    ∃ b ∈ xs, holds b k := by
  induction xs with
  | nil => cases ha
  | cons c xs ih =>
    rcases List.mem_cons.mp ha with rfl | later
    · obtain ⟨b, hb, held⟩ := h.1 k hk
      exact ⟨b, List.mem_cons_of_mem a hb, held⟩
    · obtain ⟨b, hb, held⟩ := ih h.2 later
      exact ⟨b, List.mem_cons_of_mem c hb, held⟩

end Cover

end PendingWork
