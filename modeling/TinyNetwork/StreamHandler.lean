import Mathlib.Data.List.Basic
import Mathlib.Data.Nat.Init
import Mathlib.Data.Nat.Notation

/-! Handlers of a stream that arrives in pieces. A call is shown what has arrived and was not
consumed before; it consumes a part from the front, answers, and keeps a state. A handler whose
calls can be resumed answers a stream in the same way however it is cut: it suffices that what
it does with the first part and then with what is left and more is what it does with all. A
parser that recognises one request at a time makes such a handler, if what it has recognised does
not depend on what comes behind. -/
namespace StreamHandler

variable {σ α β : Type*}

structure Outcome (σ β : Type*) where
  consumed : ℕ
  reply : List β
  state : σ

def Outcome.nothing (s : σ) : Outcome σ β := ⟨0, [], s⟩

def Outcome.andThen (first second : Outcome σ β) : Outcome σ β :=
  ⟨first.consumed + second.consumed, first.reply ++ second.reply, second.state⟩

@[simp] theorem Outcome.nothing_andThen (s : σ) (o : Outcome σ β) :
    (Outcome.nothing s).andThen o = o := by
  simp [nothing, andThen]

theorem Outcome.andThen_assoc (a b c : Outcome σ β) :
    (a.andThen b).andThen c = a.andThen (b.andThen c) := by
  simp [andThen, Nat.add_assoc]

/-- A handler with what makes its calls resumable. -/
structure Handler (σ α β : Type*) where
  handle : σ → List α → Outcome σ β
  consumed_le : ∀ s items, (handle s items).consumed ≤ items.length
  idle : ∀ s, handle s [] = .nothing s
  resume : ∀ s items more, handle s (items ++ more) =
    (handle s items).andThen (handle (handle s items).state
      (items.drop (handle s items).consumed ++ more))

namespace Handler

def left (h : Handler σ α β) (s : σ) (items : List α) : List α :=
  items.drop (h.handle s items).consumed

theorem left_append (h : Handler σ α β) (s : σ) (items more : List α) :
    h.left s (items ++ more) =
      h.left (h.handle s items).state (h.left s items ++ more) := by
  have inside := h.consumed_le s items
  rw [left, h.resume s items more, left, left, Outcome.andThen, ← List.drop_drop,
    List.drop_append_of_le_length inside]

def echo (α : Type*) : Handler Unit α α where
  handle s items := ⟨items.length, items, s⟩
  consumed_le _ _ := Nat.le_refl _
  idle _ := rfl
  resume s items more := by simp [Outcome.andThen]

end Handler

/-- One request at a time: what is recognised is not empty, and stays recognised when more
arrives. -/
structure Parser (σ α β : Type*) where
  parse : σ → List α → Option (Outcome σ β)
  positive : ∀ s items o, parse s items = some o → 0 < o.consumed
  consumed_le : ∀ s items o, parse s items = some o → o.consumed ≤ items.length
  stable : ∀ s items more o, parse s items = some o → parse s (items ++ more) = some o

namespace Parser
variable (p : Parser σ α β)

def requests : ℕ → σ → List α → Outcome σ β
  | 0, s, _ => .nothing s
  | fuel + 1, s, items =>
    match p.parse s items with
    | none => .nothing s
    | some o => o.andThen (requests fuel o.state (items.drop o.consumed))

def handle (s : σ) (items : List α) : Outcome σ β := p.requests items.length s items

theorem requests_enough {fuel : ℕ} {s : σ} {items : List α} (enough : items.length ≤ fuel) :
    p.requests fuel s items = p.handle s items := by
  suffices same : ∀ n m s (items : List α), items.length ≤ n → items.length ≤ m →
      p.requests n s items = p.requests m s items from
    same _ _ s items enough (Nat.le_refl _)
  intro n
  induction n with
  | zero =>
    intro m s items hn _
    obtain rfl := List.length_eq_zero_iff.mp (Nat.le_zero.mp hn)
    cases m with
    | zero => rfl
    | succ m =>
      cases found : p.parse s ([] : List α) with
      | none => simp [requests, found]
      | some o =>
        have some_ := p.positive s _ o found
        have none_ := p.consumed_le s _ o found
        rw [List.length_nil] at none_
        omega
  | succ n ih =>
    intro m s items hn hm
    cases found : p.parse s items with
    | none => cases m <;> simp [requests, found]
    | some o =>
      have some_ := p.positive s items o found
      have inside := p.consumed_le s items o found
      cases m with
      | zero => omega
      | succ m =>
        have left : (items.drop o.consumed).length = items.length - o.consumed :=
          List.length_drop
        simp only [requests, found]
        rw [ih m o.state (items.drop o.consumed) (by omega) (by omega)]

theorem handle_none {s : σ} {items : List α} (h : p.parse s items = none) :
    p.handle s items = .nothing s := by
  unfold handle
  cases items.length <;> simp [requests, h]

theorem handle_some {s : σ} {items : List α} {o : Outcome σ β} (h : p.parse s items = some o) :
    p.handle s items = o.andThen (p.handle o.state (items.drop o.consumed)) := by
  have some_ := p.positive s items o h
  have inside := p.consumed_le s items o h
  have left : (items.drop o.consumed).length = items.length - o.consumed := List.length_drop
  obtain ⟨n, length⟩ : ∃ n, items.length = n + 1 := ⟨items.length - 1, by omega⟩
  rw [handle, length]
  simp only [requests, h]
  rw [p.requests_enough (by omega)]

theorem handle_le (s : σ) (items : List α) : (p.handle s items).consumed ≤ items.length := by
  induction size : items.length using Nat.strong_induction_on generalizing s items with
  | _ n ih =>
    cases found : p.parse s items with
    | none =>
      rw [p.handle_none found]
      exact Nat.zero_le n
    | some o =>
      have some_ := p.positive s items o found
      have inside := p.consumed_le s items o found
      have left : (items.drop o.consumed).length = items.length - o.consumed := List.length_drop
      have rest := ih (items.length - o.consumed) (by omega) o.state _ left
      rw [p.handle_some found, Outcome.andThen]
      simp only
      omega

theorem handle_append (s : σ) (items more : List α) :
    p.handle s (items ++ more) = (p.handle s items).andThen (p.handle (p.handle s items).state
      (items.drop (p.handle s items).consumed ++ more)) := by
  induction size : items.length using Nat.strong_induction_on generalizing s items with
  | _ n ih =>
    cases found : p.parse s items with
    | none =>
      rw [p.handle_none found, Outcome.nothing_andThen]
      rfl
    | some o =>
      have some_ := p.positive s items o found
      have inside := p.consumed_le s items o found
      have left : (items.drop o.consumed).length = items.length - o.consumed := List.length_drop
      have rest := ih (items.length - o.consumed) (by omega) o.state _ left
      rw [p.handle_some (p.stable s items more o found), p.handle_some found,
        List.drop_append_of_le_length inside, rest, ← Outcome.andThen_assoc, Outcome.andThen,
        Outcome.andThen, List.drop_drop]
      rfl

def handler : Handler σ α β where
  handle := p.handle
  consumed_le := p.handle_le
  idle s := by rfl
  resume := p.handle_append

end Parser

end StreamHandler
