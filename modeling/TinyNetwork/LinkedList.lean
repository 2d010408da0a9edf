import Mathlib.Data.List.Nodup
import Mathlib.Logic.Function.Basic
import Mathlib.Tactic.Common

/-! Null-terminated singly linked lists in a memory of nodes. The list of the nodes
visited stands for the pointer structure: what a change of the links does is said on
that list. -/
namespace LinkedList

variable {α : Type*} {null : α} {next next' : α → α}

/-- Following `next` from `p` visits the nodes of the list and then meets `null`. -/
def Chain (null : α) (next : α → α) : α → List α → Prop
  | p, [] => p = null
  | p, a :: rest => p = a ∧ a ≠ null ∧ Chain null next (next a) rest

theorem chain_nil {p : α} : Chain null next p [] ↔ p = null := Iff.rfl

theorem Chain.exists_cons {p : α} {l : List α} (h : Chain null next p l) (hp : p ≠ null) :
    ∃ rest, l = p :: rest := by
  cases l with
  | nil => exact absurd h hp
  | cons a rest => exact ⟨rest, by rw [h.1]⟩

theorem Chain.ne_null {p a : α} {l : List α} (h : Chain null next p l) (ha : a ∈ l) :
    a ≠ null := by
  induction l generalizing p with
  | nil => cases ha
  | cons b l ih =>
    obtain ⟨-, hb, rest⟩ := h
    rcases List.mem_cons.mp ha with rfl | later
    · exact hb
    · exact ih rest later

theorem Chain.congr {p : α} {l : List α} (h : Chain null next p l)
    (same : ∀ a ∈ l, next' a = next a) : Chain null next' p l := by
  induction l generalizing p with
  | nil => exact h
  | cons b l ih =>
    obtain ⟨hp, hb, rest⟩ := h
    refine ⟨hp, hb, ?_⟩
    rw [same b List.mem_cons_self]
    exact ih rest fun a ha => same a (List.mem_cons_of_mem b ha)

theorem Chain.suffix {p a : α} {l rest : List α} (h : Chain null next p (l ++ a :: rest)) :
    Chain null next a (a :: rest) := by
  induction l generalizing p with
  | nil => exact ⟨rfl, h.2.1, h.2.2⟩
  | cons b l ih => exact ih h.2.2

theorem Chain.of_mem {p a : α} {l : List α} (h : Chain null next p l) (ha : a ∈ l) :
    ∃ front rest, l = front ++ a :: rest ∧ Chain null next a (a :: rest) := by
  obtain ⟨front, rest, split⟩ := List.append_of_mem ha
  exact ⟨front, rest, split, (split ▸ h).suffix⟩

theorem Chain.unique {p : α} {l l' : List α} (h : Chain null next p l)
    (h' : Chain null next p l') : l = l' := by
  induction l generalizing p l' with
  | nil =>
    cases l' with
    | nil => rfl
    | cons b rest => exact absurd (h'.1.symm.trans (chain_nil.mp h)) h'.2.1
  | cons b rest ih =>
    obtain ⟨rfl, nonnull, tail⟩ := h
    obtain ⟨rest', rfl⟩ := h'.exists_cons nonnull
    rw [ih tail h'.2.2]

theorem Chain.nodup {p : α} {l : List α} (h : Chain null next p l) : l.Nodup := by
  induction l generalizing p with
  | nil => exact List.nodup_nil
  | cons b rest ih =>
    refine List.nodup_cons.mpr ⟨fun again => ?_, ih h.2.2⟩
    obtain ⟨front, others, split, chain⟩ := h.2.2.of_mem again
    have same : rest = others := h.2.2.unique chain.2.2
    have shorter : rest.length = front.length + (others.length + 1) := by
      simpa using congrArg List.length split
    rw [← same] at shorter
    omega

theorem Chain.concat [DecidableEq α] {p last b : α} {l : List α}
    (h : Chain null next p (l ++ [last])) (distinct : (l ++ [last]).Nodup)
    (fresh : b ∉ l ++ [last]) (hb : b ≠ null) (ends : next b = null) :
    Chain null (Function.update next last b) p (l ++ [last] ++ [b]) := by
  induction l generalizing p with
  | nil =>
    obtain ⟨rfl, hlast, -⟩ := h
    have other : b ≠ p := fun same => fresh (by simp [same])
    refine ⟨rfl, hlast, ?_, hb, ?_⟩
    · exact Function.update_self p b next
    · exact (Function.update_of_ne other b next).trans ends
  | cons a l ih =>
    obtain ⟨hp, ha, rest⟩ := h
    obtain ⟨apart, distinct⟩ := List.nodup_cons.mp distinct
    have other : a ≠ last := fun same => apart (by simp [same])
    refine ⟨hp, ha, ?_⟩
    rw [Function.update_of_ne other]
    exact ih rest distinct fun mem => fresh (List.mem_cons_of_mem a mem)

/-- Induction on a list along with fuel that lasts for it: a walk with no node left to visit, and
one with a node in front of the rest. -/
@[elab_as_elim]
theorem fuel_induction {motive : (l : List α) → (fuel : ℕ) → l.length < fuel → Prop}
    (nil : ∀ fuel, motive [] (fuel + 1) (Nat.succ_pos fuel))
    (cons : ∀ a rest fuel (lasts : rest.length < fuel), motive rest fuel lasts →
      motive (a :: rest) (fuel + 1) (Nat.succ_lt_succ lasts))
    (l : List α) (fuel : ℕ) (lasts : l.length < fuel) : motive l fuel lasts := by
  induction l generalizing fuel with
  | nil =>
    obtain ⟨fuel, rfl⟩ := Nat.exists_eq_add_one_of_ne_zero (Nat.ne_zero_of_lt lasts)
    exact nil fuel
  | cons a rest ih =>
    obtain ⟨fuel, rfl⟩ := Nat.exists_eq_add_one_of_ne_zero (Nat.ne_zero_of_lt lasts)
    exact cons a rest fuel (Nat.lt_of_succ_lt_succ lasts) (ih fuel _)

section Search
variable [DecidableEq α] {test : α → Prop} [DecidablePred test] {p : α} {l : List α} {fuel : ℕ}

/-- The first node from `p` on that passes the test, `some none` when there is none, and `none`
when the fuel does not last. -/
def search (null : α) (next : α → α) (test : α → Prop) [DecidablePred test] :
    ℕ → α → Option (Option α)
  | 0, _ => none
  | fuel + 1, p =>
    if p = null then some none
    else if test p then some (some p)
    else search null next test fuel (next p)

/-- A search that ends has found a node of the list that passes, or none of them does. -/
theorem Chain.search_spec {found : Option α} (h : Chain null next p l)
    (hs : search null next test fuel p = some found) :
    (∀ a ∈ found, a ∈ l ∧ test a) ∧ (found = none → ∀ a ∈ l, ¬test a) := by
  induction l generalizing fuel p with
  | nil =>
    cases fuel with
    | zero => cases hs
    | succ fuel =>
      rw [search, if_pos (chain_nil.mp h)] at hs
      simp [← Option.some.inj hs]
  | cons b rest ih =>
    obtain ⟨rfl, nonnull, tail⟩ := h
    cases fuel with
    | zero => cases hs
    | succ fuel =>
      rw [search, if_neg nonnull] at hs
      split_ifs at hs with passes
      · cases hs
        simpa using passes
      · obtain ⟨one, all⟩ := ih tail hs
        refine ⟨fun a ha => (one a ha).imp_left (List.mem_cons_of_mem _), fun missed => ?_⟩
        exact List.forall_mem_cons.mpr ⟨passes, all missed⟩

theorem Chain.search_first {a : α} (h : Chain null next p l)
    (hs : search null next test fuel p = some (some a)) :
    ∃ front rest, l = front ++ a :: rest ∧ ∀ b ∈ front, ¬test b := by
  induction l generalizing fuel p with
  | nil => exact absurd ((h.search_spec hs).1 a rfl).1 List.not_mem_nil
  | cons b rest ih =>
    obtain ⟨rfl, nonnull, tail⟩ := h
    cases fuel with
    | zero => cases hs
    | succ fuel =>
      rw [search, if_neg nonnull] at hs
      split_ifs at hs with passes
      · cases hs
        exact ⟨[], rest, rfl, by simp⟩
      · obtain ⟨front, others, split, fails⟩ := ih tail hs
        exact ⟨p :: front, others, by rw [split]; rfl, List.forall_mem_cons.mpr ⟨passes, fails⟩⟩

theorem Chain.search_total (h : Chain null next p l) (enough : l.length < fuel) :
    ∃ found, search null next test fuel p = some found := by
  induction l, fuel, enough using fuel_induction generalizing p with
  | nil fuel => exact ⟨none, by rw [search, if_pos (chain_nil.mp h)]⟩
  | cons b rest fuel lasts ih =>
    obtain ⟨rfl, nonnull, tail⟩ := h
    rw [search, if_neg nonnull]
    split_ifs with passes
    · exact ⟨some p, rfl⟩
    · exact ih tail

end Search

end LinkedList
