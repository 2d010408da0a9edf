import Mathlib.Data.List.TakeWhile
import Mathlib.Order.Lattice
import Mathlib.Tactic.Common

/-! Finite sets over a linear order as strictly ascending lists, the way an ordered
tree enumerates them. A set carries the proof that it ascends. Insertion ignores
an element that is present; a lower bound splits a set into the elements before
it and the rest. -/

@[ext] structure OrderedSet (α : Type*) [LinearOrder α] where
  elements : List α
  ascending : elements.Pairwise (· < ·)

namespace OrderedSet

variable {α : Type*} [LinearOrder α]

def place (x : α) : List α → List α
  | [] => [x]
  | y :: ys => if x < y then x :: y :: ys else if y < x then y :: place x ys else y :: ys

theorem mem_place {x y : α} {l : List α} : y ∈ place x l ↔ y = x ∨ y ∈ l := by
  induction l with
  | nil => simp [place]
  | cons z zs ih =>
    unfold place
    split_ifs with before after
    · exact List.mem_cons
    · rw [List.mem_cons, ih, List.mem_cons]
      exact or_left_comm
    · have same : x = z := le_antisymm (not_lt.mp after) (not_lt.mp before)
      rw [same, List.mem_cons]
      exact ⟨.inr, fun h => h.elim .inl id⟩

theorem place_ascending (x : α) {l : List α} (h : l.Pairwise (· < ·)) :
    (place x l).Pairwise (· < ·) := by
  induction l with
  | nil => exact List.pairwise_singleton _ x
  | cons z zs ih =>
    obtain ⟨least, rest⟩ := List.pairwise_cons.mp h
    unfold place
    split_ifs with before after
    · refine List.pairwise_cons.mpr ⟨fun y hy => ?_, h⟩
      rcases List.mem_cons.mp hy with rfl | later
      · exact before
      · exact before.trans (least y later)
    · refine List.pairwise_cons.mpr ⟨fun y hy => ?_, ih rest⟩
      rcases mem_place.mp hy with rfl | later
      · exact after
      · exact least y later
    · exact h

theorem place_perm {x : α} {l : List α} (absent : x ∉ l) : (place x l).Perm (x :: l) := by
  induction l with
  | nil => exact List.Perm.refl _
  | cons z zs ih =>
    obtain ⟨other, later⟩ := not_or.mp (List.mem_cons.not.mp absent)
    unfold place
    split_ifs with before after
    · exact List.Perm.refl _
    · exact ((ih later).cons z).trans (List.Perm.swap x z zs)
    · exact absurd (le_antisymm (not_lt.mp after) (not_lt.mp before)) other

def empty : OrderedSet α := ⟨[], List.Pairwise.nil⟩

def insert (s : OrderedSet α) (x : α) : OrderedSet α :=
  ⟨place x s.elements, place_ascending x s.ascending⟩

def first? (s : OrderedSet α) : Option α := s.elements.head?

def before (s : OrderedSet α) (x : α) : List α := s.elements.takeWhile (· < x)

def eraseBefore (s : OrderedSet α) (x : α) : OrderedSet α :=
  ⟨s.elements.dropWhile (· < x), s.ascending.sublist (List.dropWhile_sublist _)⟩

theorem before_append_eraseBefore (s : OrderedSet α) (x : α) :
    s.before x ++ (s.eraseBefore x).elements = s.elements := List.takeWhile_append_dropWhile

theorem eraseBefore_ge {s : OrderedSet α} {x y : α} (h : y ∈ (s.eraseBefore x).elements) :
    x ≤ y := by
  obtain ⟨elements, ascending⟩ := s
  simp only [eraseBefore] at h
  induction elements with
  | nil => simp at h
  | cons z zs ih =>
    obtain ⟨least, rest⟩ := List.pairwise_cons.mp ascending
    by_cases below : z < x
    · rw [List.dropWhile_cons_of_pos (by simpa using below)] at h
      exact ih rest h
    · rw [List.dropWhile_cons_of_neg (by simpa using below)] at h
      rcases List.mem_cons.mp h with rfl | later
      · exact not_lt.mp below
      · exact (not_lt.mp below).trans (least y later).le

theorem mem_before {s : OrderedSet α} {x y : α} : y ∈ s.before x ↔ y ∈ s.elements ∧ y < x := by
  constructor
  · intro h
    exact ⟨(List.takeWhile_sublist _).mem h, by simpa using List.mem_takeWhile_imp h⟩
  · rintro ⟨mem, below⟩
    rw [← before_append_eraseBefore s x, List.mem_append] at mem
    exact mem.resolve_right fun stays => absurd below (not_lt.mpr (eraseBefore_ge stays))

theorem mem_eraseBefore {s : OrderedSet α} {x y : α} :
    y ∈ (s.eraseBefore x).elements ↔ y ∈ s.elements ∧ x ≤ y := by
  constructor
  · intro h
    exact ⟨(List.dropWhile_sublist _).mem h, eraseBefore_ge h⟩
  · rintro ⟨mem, above⟩
    rw [← before_append_eraseBefore s x, List.mem_append] at mem
    exact mem.resolve_left fun taken => absurd (mem_before.mp taken).2 (not_lt.mpr above)

theorem before_ascending (s : OrderedSet α) (x : α) : (s.before x).Pairwise (· < ·) :=
  s.ascending.sublist (List.takeWhile_sublist _)

end OrderedSet
