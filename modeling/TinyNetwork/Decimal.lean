import Mathlib.Data.Nat.Digits.Lemmas

/-! Decimal text of integers, as bytes: the digits of a number in positional order, a
minus sign before those of a negative one, no leading zero. Reading the text back gives
the number, so different numbers have different texts. -/
namespace Decimal

def digit (d : ℕ) : UInt8 := UInt8.ofNat (48 + d)

def minus : UInt8 := 45

def lowFirst (n : ℕ) : List UInt8 := if n = 0 then [digit 0] else (Nat.digits 10 n).map digit

def ofNat (n : ℕ) : List UInt8 := (lowFirst n).reverse

def ofInt (v : ℤ) : List UInt8 := if v < 0 then minus :: ofNat v.natAbs else ofNat v.natAbs

def isDigit (c : UInt8) : Bool := 48 ≤ c && c ≤ 57

def valueOf (c : UInt8) : ℕ := c.toNat - 48

/-- A text of digits with no leading zero; anything else is refused. -/
def parseNat (text : List UInt8) : Option ℕ :=
  if text ≠ [] ∧ text.all isDigit ∧ (1 < text.length → text.head? ≠ some (digit 0)) then
    some (text.foldl (fun n c => valueOf c + 10 * n) 0)
  else none

def parse : List UInt8 → Option ℤ
  | [] => none
  | c :: rest =>
    if c = minus then (parseNat rest).map fun n : ℕ => -(n : ℤ)
    else (parseNat (c :: rest)).map fun n : ℕ => (n : ℤ)

section Digits

theorem digit_toNat {d : ℕ} (h : d < 10) : (digit d).toNat = 48 + d := by
  rw [digit, UInt8.toNat_ofNat']
  exact Nat.mod_eq_of_lt (by omega)

theorem digit_isDigit {d : ℕ} (h : d < 10) : isDigit (digit d) = true := by
  simp only [isDigit, Bool.and_eq_true, decide_eq_true_eq, UInt8.le_iff_toNat_le, digit_toNat h]
  exact ⟨Nat.le_add_right _ _, by change 48 + d ≤ 57; omega⟩

theorem digit_valueOf {d : ℕ} (h : d < 10) : valueOf (digit d) = d := by
  rw [valueOf, digit_toNat h]
  exact Nat.add_sub_cancel_left 48 d

theorem digit_inj {d e : ℕ} (hd : d < 10) (he : e < 10) (h : digit d = digit e) : d = e := by
  rw [← digit_valueOf hd, h, digit_valueOf he]

theorem isDigit_ne_minus {c : UInt8} (h : isDigit c = true) : c ≠ minus := by
  rintro rfl
  cases h

theorem lowFirst_eq (n : ℕ) :
    lowFirst n = digit (n % 10) :: if n / 10 = 0 then [] else lowFirst (n / 10) := by
  by_cases zero : n = 0
  · subst zero
    rfl
  · rw [lowFirst, if_neg zero, Nat.digits_def' (by decide) (Nat.pos_of_ne_zero zero),
      List.map_cons]
    congr 1
    split_ifs with last
    · rw [last]
      rfl
    · rw [lowFirst, if_neg last]

theorem lowFirst_ne_nil (n : ℕ) : lowFirst n ≠ [] := by
  rw [lowFirst_eq]
  exact List.cons_ne_nil _ _

theorem lowFirst_digit {n : ℕ} {c : UInt8} (h : c ∈ lowFirst n) : ∃ d < 10, digit d = c := by
  unfold lowFirst at h
  split_ifs at h
  · exact ⟨0, by decide, (List.mem_singleton.mp h).symm⟩
  · obtain ⟨d, mem, rfl⟩ := List.mem_map.mp h
    exact ⟨d, Nat.digits_lt_base (by decide) mem, rfl⟩

theorem lowFirst_length {n k : ℕ} (some : 0 < k) (h : n < 10 ^ k) : (lowFirst n).length ≤ k := by
  unfold lowFirst
  split_ifs
  · exact some
  · rw [List.length_map]
    exact (Nat.digits_length_le_iff (by decide) n).mpr h

theorem lowFirst_value (n : ℕ) :
    (lowFirst n).foldr (fun c m => valueOf c + 10 * m) 0 = n := by
  induction n using Nat.strong_induction_on with
  | _ n ih =>
    have small : n % 10 < 10 := Nat.mod_lt _ (by decide)
    rw [lowFirst_eq, List.foldr_cons, digit_valueOf small]
    split_ifs with last
    · rw [List.foldr_nil]
      omega
    · rw [ih (n / 10) (Nat.div_lt_self (by omega) (by decide))]
      exact Nat.mod_add_div n 10

theorem ofNat_head {n : ℕ} (h : n ≠ 0) : (ofNat n).head? ≠ some (digit 0) := by
  rw [ofNat, List.head?_reverse, lowFirst, if_neg h, List.getLast?_map,
    List.getLast?_eq_some_getLast (Nat.digits_ne_nil_iff_ne_zero.mpr h), Option.map_some]
  intro zero
  have below : (Nat.digits 10 n).getLast (Nat.digits_ne_nil_iff_ne_zero.mpr h) < 10 :=
    Nat.digits_lt_base (by decide) (List.getLast_mem _)
  exact Nat.getLast_digit_ne_zero 10 h (digit_inj below (by decide) (Option.some.inj zero))

end Digits

section Text

theorem ofNat_length {n k : ℕ} (some : 0 < k) (h : n < 10 ^ k) : (ofNat n).length ≤ k := by
  rw [ofNat, List.length_reverse]
  exact lowFirst_length some h

theorem ofNat_isDigit {n : ℕ} {c : UInt8} (h : c ∈ ofNat n) : isDigit c = true := by
  obtain ⟨d, small, rfl⟩ := lowFirst_digit (List.mem_reverse.mp h)
  exact digit_isDigit small

theorem ofNat_ne_nil (n : ℕ) : ofNat n ≠ [] := by
  rw [ofNat, Ne, List.reverse_eq_nil_iff]
  exact lowFirst_ne_nil n

theorem parseNat_ofNat (n : ℕ) : parseNat (ofNat n) = some n := by
  have leading : 1 < (ofNat n).length → (ofNat n).head? ≠ some (digit 0) := by
    intro long
    apply ofNat_head
    rintro rfl
    exact absurd long (by decide)
  rw [parseNat, if_pos ⟨ofNat_ne_nil n, List.all_eq_true.mpr fun c h => ofNat_isDigit h, leading⟩,
    ofNat, List.foldl_reverse, lowFirst_value]

theorem ofInt_head (v : ℤ) : (ofInt v).head? = some minus ↔ v < 0 := by
  unfold ofInt
  split_ifs with negative
  · exact iff_of_true rfl negative
  · refine iff_of_false (fun sign => ?_) negative
    have mem : minus ∈ ofNat v.natAbs := List.mem_of_mem_head? sign
    exact isDigit_ne_minus (ofNat_isDigit mem) rfl

theorem parse_ofInt (v : ℤ) : parse (ofInt v) = some v := by
  unfold ofInt
  split_ifs with negative
  · rw [parse, if_pos rfl, parseNat_ofNat, Option.map_some]
    congr 1
    omega
  · obtain ⟨c, rest, text⟩ := List.exists_cons_of_ne_nil (ofNat_ne_nil v.natAbs)
    have first : c ∈ ofNat v.natAbs := text ▸ List.mem_cons_self
    rw [text, parse, if_neg (isDigit_ne_minus (ofNat_isDigit first)), ← text, parseNat_ofNat,
      Option.map_some]
    congr 1
    omega

theorem ofInt_injective : Function.Injective ofInt := by
  intro v w same
  have read := parse_ofInt v
  rw [same, parse_ofInt] at read
  exact (Option.some.inj read).symm

theorem ofInt_length {v : ℤ} {k : ℕ} (some : 0 < k) (h : v.natAbs < 10 ^ k) :
    (ofInt v).length ≤ k + 1 := by
  have digits := ofNat_length some h
  unfold ofInt
  split_ifs
  · exact Nat.succ_le_succ digits
  · exact digits.trans (Nat.le_succ k)

end Text

end Decimal
