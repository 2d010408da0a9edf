import Mathlib.Data.List.Infix
import Mathlib.Data.Nat.Notation

/-! The first occurrence of a pattern in a list. -/
namespace PatternSearch

variable {α : Type*} [DecidableEq α] {pattern items more : List α}

/-- Where the first occurrence begins, or the end if there is none. -/
def search (pattern : List α) : List α → ℕ
  | [] => 0
  | a :: items => if pattern <+: a :: items then 0 else search pattern items + 1

theorem search_le (pattern items : List α) : search pattern items ≤ items.length := by
  induction items with
  | nil => exact Nat.le_refl 0
  | cons a items ih =>
    unfold search
    split_ifs
    · exact Nat.zero_le _
    · exact Nat.succ_le_succ ih

theorem search_split (found : search pattern items < items.length) :
    ∃ rest, items = items.take (search pattern items) ++ pattern ++ rest := by
  induction items with
  | nil => exact absurd found (Nat.lt_irrefl 0)
  | cons a items ih =>
    unfold search at found ⊢
    split_ifs at found ⊢ with here
    · obtain ⟨rest, same⟩ := here
      exact ⟨rest, same.symm⟩
    · obtain ⟨rest, same⟩ := ih (Nat.lt_of_succ_lt_succ found)
      refine ⟨rest, ?_⟩
      rw [List.take_succ_cons, List.cons_append, List.cons_append, ← same]

theorem search_room (found : search pattern items < items.length) :
    search pattern items + pattern.length ≤ items.length := by
  obtain ⟨rest, same⟩ := search_split found
  have size := congrArg List.length same
  have inside := search_le pattern items
  rw [List.length_append, List.length_append, List.length_take, Nat.min_eq_left inside] at size
  omega

theorem search_clean (some_ : pattern ≠ []) (items : List α) :
    ¬pattern <:+: items.take (search pattern items) := by
  have nowhere : ¬pattern <:+: [] := fun inside => some_ (List.infix_nil.mp inside)
  induction items with
  | nil => exact nowhere
  | cons a items ih =>
    unfold search
    split_ifs with here
    · exact nowhere
    · rw [List.take_succ_cons, List.infix_cons_iff]
      rintro (front | inside)
      · exact here (front.trans (List.cons_prefix_cons.mpr ⟨rfl, List.take_prefix _ _⟩))
      · exact ih inside

theorem search_end (some_ : pattern ≠ []) (none_ : ¬search pattern items < items.length) :
    ¬pattern <:+: items := by
  have clean := search_clean some_ items
  rwa [List.take_of_length_le (Nat.le_of_not_lt none_)] at clean

theorem search_append (found : search pattern items < items.length) (more : List α) :
    search pattern (items ++ more) = search pattern items := by
  induction items with
  | nil => exact absurd found (Nat.lt_irrefl 0)
  | cons a items ih =>
    rw [List.cons_append, search]
    conv_rhs => rw [search]
    unfold search at found
    by_cases here : pattern <+: a :: items
    · have still : pattern <+: a :: (items ++ more) :=
        here.trans (List.prefix_append (a :: items) more)
      rw [if_pos here, if_pos still]
    · rw [if_neg here] at found ⊢
      have later := Nat.lt_of_succ_lt_succ found
      have room := search_room later
      have nothere : ¬pattern <+: a :: (items ++ more) := fun front => by
        refine here (List.prefix_of_prefix_length_le front
          (List.prefix_append (a :: items) more) ?_)
        rw [List.length_cons]
        omega
      rw [if_neg nothere, ih later]

end PatternSearch
