import Mathlib.Data.UInt
import Mathlib.Tactic.Common

/-! Bytes behind addresses, as pointers see them: reading a range, and texts that end with
a zero byte. Searching for that byte is cut off by a number of turns. -/
namespace ByteMemory

abbrev Memory := ℕ → UInt8

def read (m : Memory) (p : ℕ) : ℕ → List UInt8
  | 0 => []
  | n + 1 => m p :: read m (p + 1) n

def addresses (p n : ℕ) : List ℕ := List.range' p n

def Spells (m : Memory) (p : ℕ) : List UInt8 → Prop
  | [] => m p = 0
  | c :: text => c ≠ 0 ∧ m p = c ∧ Spells m (p + 1) text

def decideSpells (m : Memory) (p : ℕ) : (text : List UInt8) → Decidable (Spells m p text)
  | [] => inferInstanceAs (Decidable (m p = 0))
  | c :: text =>
    have := decideSpells m (p + 1) text
    inferInstanceAs (Decidable (c ≠ 0 ∧ m p = c ∧ Spells m (p + 1) text))

instance (m : Memory) (p : ℕ) (text : List UInt8) : Decidable (Spells m p text) :=
  decideSpells m p text

def strlen : ℕ → Memory → ℕ → Option ℕ
  | 0, _, _ => none
  | fuel + 1, m, p => if m p = 0 then some 0 else (strlen fuel m (p + 1)).map (· + 1)

/-- The address of the last `c` before the first zero; `c` is no zero. -/
def strrchr : ℕ → Memory → ℕ → UInt8 → Option (Option ℕ)
  | 0, _, _, _ => none
  | fuel + 1, m, p, c =>
    if m p = 0 then some none
    else (strrchr fuel m (p + 1) c).map fun later =>
      later.orElse fun _ => if m p = c then some p else none

def afterLast (c : UInt8) (text : List UInt8) : List UInt8 :=
  (text.reverse.takeWhile (· ≠ c)).reverse

variable {m : Memory} {p : ℕ} {text : List UInt8}

@[simp] theorem read_length (n : ℕ) : (read m p n).length = n := by
  induction n generalizing p with
  | zero => rfl
  | succ n ih => rw [read, List.length_cons, ih]

theorem mem_read {n : ℕ} {c : UInt8} (h : c ∈ read m p n) : ∃ q ≥ p, m q = c := by
  induction n generalizing p with
  | zero => exact absurd h List.not_mem_nil
  | succ n ih =>
    rcases List.mem_cons.mp h with rfl | rest
    · exact ⟨p, Nat.le_refl p, rfl⟩
    · obtain ⟨q, behind, here⟩ := ih rest
      exact ⟨q, Nat.le_of_succ_le behind, here⟩

theorem Spells.read_eq (h : Spells m p text) : read m p text.length = text := by
  induction text generalizing p with
  | nil => rfl
  | cons c text ih =>
    obtain ⟨-, here, rest⟩ := h
    rw [List.length_cons, read, here, ih rest]

theorem Spells.strlen_eq {fuel : ℕ} (h : Spells m p text) (turns : text.length < fuel) :
    strlen fuel m p = some text.length := by
  induction fuel generalizing p text with
  | zero => exact absurd turns (Nat.not_lt_zero _)
  | succ fuel ih =>
    cases text with
    | nil => exact if_pos h
    | cons c text =>
      obtain ⟨letter, here, rest⟩ := h
      rw [List.length_cons] at turns ⊢
      rw [strlen, here, if_neg letter, ih rest (Nat.lt_of_succ_lt_succ turns), Option.map_some]

theorem Spells.drop {front : List UInt8} (h : Spells m p (front ++ text)) :
    Spells m (p + front.length) text := by
  induction front generalizing p with
  | nil => exact h
  | cons c front ih =>
    rw [List.length_cons, Nat.add_comm front.length, ← Nat.add_assoc]
    exact ih h.2.2

theorem Spells.strrchr_eq {fuel : ℕ} {c : UInt8} (h : Spells m p text)
    (turns : text.length < fuel) :
    c ∉ text ∧ strrchr fuel m p c = some none ∨ ∃ front back, text = front ++ c :: back ∧
      c ∉ back ∧ strrchr fuel m p c = some (some (p + front.length)) := by
  induction fuel generalizing p text with
  | zero => exact absurd turns (Nat.not_lt_zero _)
  | succ fuel ih =>
    cases text with
    | nil => exact Or.inl ⟨List.not_mem_nil, if_pos h⟩
    | cons d text =>
      obtain ⟨letter, here, rest⟩ := h
      rw [List.length_cons] at turns
      simp only [strrchr, here, if_neg letter]
      have later := ih rest (Nat.lt_of_succ_lt_succ turns)
      rcases later with ⟨absent, found⟩ | ⟨front, back, rfl, last, found⟩
      · rw [found, Option.map_some]
        by_cases this : d = c
        · right
          exact ⟨[], text, by rw [this, List.nil_append], absent, by simp [this]⟩
        · left
          exact ⟨by simp [absent, Ne.symm this], by simp [this]⟩
      · right
        refine ⟨d :: front, back, rfl, last, ?_⟩
        rw [found, Option.map_some, List.length_cons, Option.orElse_some]
        congr 2
        omega

theorem takeWhile_absent {c : UInt8} (h : c ∉ text) (rest : List UInt8) :
    (text.reverse ++ rest).takeWhile (· ≠ c) = text.reverse ++ rest.takeWhile (· ≠ c) := by
  refine List.takeWhile_append_of_pos fun d mem => decide_eq_true fun same => h ?_
  exact same ▸ List.mem_reverse.mp mem

theorem afterLast_absent {c : UInt8} (h : c ∉ text) : afterLast c text = text := by
  have all := takeWhile_absent h []
  rw [List.append_nil, List.takeWhile_nil, List.append_nil] at all
  rw [afterLast, all, List.reverse_reverse]

theorem afterLast_append {c : UInt8} {front back : List UInt8} (h : c ∉ back) :
    afterLast c (front ++ c :: back) = back := by
  have stop : (c :: front.reverse).takeWhile (· ≠ c) = [] :=
    List.takeWhile_cons_of_neg (by simp)
  rw [afterLast, List.reverse_append, List.reverse_cons, List.append_assoc, List.singleton_append,
    takeWhile_absent h, stop, List.append_nil, List.reverse_reverse]

end ByteMemory
