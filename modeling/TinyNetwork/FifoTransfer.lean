import TinyNetwork.Transition
import Mathlib.Data.Nat.Notation

/-! First-in first-out hand-over, as an abstract system over arbitrary items. Items
are submitted at one end, wait, and are delivered at the other end in batches of
any size. What was delivered, followed by what waits, is what was submitted: no
item is lost, duplicated or reordered. A concrete queue inherits this by a
forward simulation. The second half is the chunked form, where the carrier
holds whole records packed into consecutive chunks. -/
namespace FifoTransfer
open Transition

variable {β : Type*}

structure Transfer (β : Type*) where
  delivered : List β
  waiting : List β
  submitted : List β

inductive Move (β : Type*) where
  | submit (items : List β)
  | deliver (count : ℕ)

def Transfer.move (t : Transfer β) : Move β → Transfer β
  | .submit items => ⟨t.delivered, t.waiting ++ items, t.submitted ++ items⟩
  | .deliver count => ⟨t.delivered ++ t.waiting.take count, t.waiting.drop count, t.submitted⟩

def transfer (β : Type*) : System (Transfer β) (Move β) where
  init t := t = ⟨[], [], []⟩
  next t m := some (t.move m)

theorem move_conserves (t : Transfer β) (m : Move β)
    (h : t.delivered ++ t.waiting = t.submitted) :
    (t.move m).delivered ++ (t.move m).waiting = (t.move m).submitted := by
  cases m with
  | submit items => simp [Transfer.move, ← h]
  | deliver count => simp [Transfer.move, List.append_assoc, h]

theorem conserved {t : Transfer β} (h : (transfer β).Reachable Any t) :
    t.delivered ++ t.waiting = t.submitted :=
  h.invariant (P := fun t => t.delivered ++ t.waiting = t.submitted)
    (fun t ht => by rw [show t = ⟨[], [], []⟩ from ht]; rfl)
    (fun t m u ht _ hn => by
      rw [← Option.some.inj hn]
      exact move_conserves t m ht)

theorem path_move (t : Transfer β) (m : Move β) : (transfer β).Path Any t (t.move m) :=
  System.Path.single trivial rfl

/-- Submit, then deliver at once: the shape of a write that first queues its data
behind what waits and then hands over a prefix. -/
theorem path_submit_deliver (t : Transfer β) (items : List β) (count : ℕ) :
    (transfer β).Path Any t
      ⟨t.delivered ++ (t.waiting ++ items).take count, (t.waiting ++ items).drop count,
        t.submitted ++ items⟩ :=
  (path_move t (.submit items)).trans (path_move _ (.deliver count))

section Chunks

/-- `chunks` hold `records` in order, whole: each chunk is a run of consecutive
records written one after the other. -/
def Carries (chunks records : List (List β)) : Prop :=
  ∃ groups : List (List (List β)), groups.flatten = records ∧ groups.map List.flatten = chunks

theorem carries_empty : Carries [[]] ([] : List (List β)) := ⟨[[]], rfl, rfl⟩

theorem Carries.flatten {chunks records : List (List β)} (h : Carries chunks records) :
    chunks.flatten = records.flatten := by
  obtain ⟨groups, rfl, rfl⟩ := h
  exact (List.flatten_flatten).symm

theorem Carries.fresh {chunks records : List (List β)} (h : Carries chunks records) :
    Carries (chunks ++ [[]]) records := by
  obtain ⟨groups, rfl, rfl⟩ := h
  exact ⟨groups ++ [[]], by simp, by simp⟩

theorem Carries.extend {chunks records : List (List β)} {last : List β} (record : List β)
    (h : Carries (chunks ++ [last]) records) :
    Carries (chunks ++ [last ++ record]) (records ++ [record]) := by
  obtain ⟨groups, rfl, hmap⟩ := h
  obtain ⟨front, rear, rfl, hfront, hrear⟩ := List.map_eq_append_iff.mp hmap
  obtain ⟨group, none, rfl, hgroup, hnone⟩ := List.map_eq_cons_iff.mp hrear
  rw [List.map_eq_nil_iff] at hnone
  subst hnone
  refine ⟨front ++ [group ++ [record]], ?_, ?_⟩
  · simp
  · simp [hfront, hgroup]

end Chunks

end FifoTransfer
