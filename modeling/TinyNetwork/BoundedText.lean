import Mathlib.Data.List.Forall2
import Mathlib.Tactic.Common

/-! Text collected in bounded space. A piece asks for a number of free places, enough
for its own text; with fewer left it is dropped, and nothing of it is taken. What is
held after any sequence of pieces is what was held before and then the texts of some
of the pieces, in order. -/
namespace BoundedText

variable {α : Type*}

structure Piece (α : Type*) where
  need : ℕ
  text : List α
  covered : text.length ≤ need

def offer (cap : ℕ) (content : List α) (p : Piece α) : List α :=
  if content.length + p.need ≤ cap then content ++ p.text else content

def offerAll (cap : ℕ) (content : List α) (pieces : List (Piece α)) : List α :=
  pieces.foldl (offer cap) content

variable {cap spare : ℕ} {content : List α}

theorem offer_taken {p : Piece α} (room : content.length + p.need ≤ cap) :
    offer cap content p = content ++ p.text := if_pos room

theorem offer_dropped {p : Piece α} (full : ¬content.length + p.need ≤ cap) :
    offer cap content p = content := if_neg full

theorem offer_cases (p : Piece α) :
    offer cap content p = content ∨ offer cap content p = content ++ p.text :=
  (em (content.length + p.need ≤ cap)).symm.imp offer_dropped offer_taken

theorem offerAll_cons (p : Piece α) (pieces : List (Piece α)) :
    offerAll cap content (p :: pieces) = offerAll cap (offer cap content p) pieces := rfl

theorem le_offer_length (p : Piece α) : content.length ≤ (offer cap content p).length := by
  rcases @offer_cases _ cap content p with dropped | taken
  · exact Nat.le_of_eq (congrArg List.length dropped.symm)
  · rw [taken, List.length_append]
    exact Nat.le_add_right _ _

theorem offer_not_mem {a : α} {p : Piece α} (h : a ∉ content)
    (other : p.need ≤ cap → a ∉ p.text) : a ∉ offer cap content p := by
  by_cases room : content.length + p.need ≤ cap
  · rw [offer_taken room]
    exact List.not_mem_append h (other (by omega))
  · rw [offer_dropped room]
    exact h

theorem offerAll_not_mem {a : α} {pieces : List (Piece α)} (h : a ∉ content)
    (other : ∀ p ∈ pieces, p.need ≤ cap → a ∉ p.text) : a ∉ offerAll cap content pieces := by
  induction pieces generalizing content with
  | nil => exact h
  | cons p pieces ih =>
    exact ih (offer_not_mem h (other p List.mem_cons_self))
      fun q mem => other q (List.mem_cons_of_mem p mem)

/-- Some of the pieces, in order, stand behind what was held; each piece comes from the
source beside it. -/
theorem offerAll_kept {β : Type*} {R : β → Piece α → Prop} {sources : List β}
    {pieces : List (Piece α)} (h : List.Forall₂ R sources pieces) :
    ∃ kept taken, List.Sublist kept sources ∧ List.Forall₂ R kept taken ∧
      offerAll cap content pieces = content ++ taken.flatMap Piece.text := by
  induction h generalizing content with
  | nil => exact ⟨[], [], List.Sublist.refl _, List.Forall₂.nil, (List.append_nil content).symm⟩
  | @cons source p sources pieces renders _ ih =>
    rw [offerAll_cons]
    rcases offer_cases p with dropped | taken_
    · obtain ⟨kept, taken, sub, each, held⟩ := @ih content
      rw [dropped]
      exact ⟨kept, taken, sub.cons source, each, held⟩
    · obtain ⟨kept, taken, sub, each, held⟩ := @ih (content ++ p.text)
      refine ⟨source :: kept, p :: taken, sub.cons_cons source, each.cons renders, ?_⟩
      rw [taken_, held, List.flatMap_cons, List.append_assoc]

theorem offerAll_room {pieces : List (Piece α)}
    (asked : ∀ p ∈ pieces, p.need ≤ p.text.length + spare)
    (room : content.length + (pieces.flatMap Piece.text).length + spare ≤ cap) :
    offerAll cap content pieces = content ++ pieces.flatMap Piece.text := by
  induction pieces generalizing content with
  | nil => exact (List.append_nil content).symm
  | cons p pieces ih =>
    have first := asked p List.mem_cons_self
    rw [List.flatMap_cons, List.length_append] at room
    have taken : offer cap content p = content ++ p.text := offer_taken (by omega)
    rw [offerAll_cons, taken, ih (fun q hq => asked q (List.mem_cons_of_mem p hq)),
      List.flatMap_cons, List.append_assoc]
    rw [List.length_append]
    omega

theorem offerAll_full {pieces : List (Piece α)}
    (full : ∀ p ∈ pieces, cap < content.length + p.need) :
    offerAll cap content pieces = content := by
  induction pieces with
  | nil => rfl
  | cons p pieces ih =>
    have dropped : offer cap content p = content :=
      offer_dropped (Nat.not_le.mpr (full p List.mem_cons_self))
    rw [offerAll_cons, dropped, ih fun q mem => full q (List.mem_cons_of_mem p mem)]

end BoundedText
