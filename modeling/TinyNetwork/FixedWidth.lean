import TinyNetwork.Decimal

/-! Numbers in decimal fields of a fixed width, as `printf` pads them, and records of such
fields with a separator behind each. Texts of one layout are ordered as the numbers in
them. -/
namespace FixedWidth
open Decimal

def field : ℕ → ℕ → List UInt8
  | 0, _ => []
  | k + 1, n => field k (n / 10) ++ [digit (n % 10)]

/-- `%0*d`: zeros fill the width between the sign and the digits. -/
def zeroPadded (width : ℕ) (v : ℤ) : List UInt8 :=
  let digits := ofNat v.natAbs
  if v < 0 then minus :: (List.replicate (width - 1 - digits.length) (digit 0) ++ digits)
  else List.replicate (width - digits.length) (digit 0) ++ digits

def blankPadded (width : ℕ) (v : ℤ) : List UInt8 :=
  List.replicate (width - (ofInt v).length) 32 ++ ofInt v

abbrev Layout := List (ℕ × UInt8)

def record : Layout → List ℕ → List UInt8
  | (width, separator) :: layout, n :: values =>
    field width n ++ separator :: record layout values
  | _, _ => []

def Fits : Layout → List ℕ → Prop
  | (width, _) :: layout, n :: values => n < 10 ^ width ∧ Fits layout values
  | [], [] => True
  | _, _ => False

section Order
variable {α : Type*} [LT α]

theorem append_lt_append_iff {l₁ l₂ r₁ r₂ : List α} (same : l₁.length = l₂.length) :
    l₁ ++ r₁ < l₂ ++ r₂ ↔ l₁ < l₂ ∨ l₁ = l₂ ∧ r₁ < r₂ := by
  induction l₁ generalizing l₂ with
  | nil =>
    obtain rfl := List.eq_nil_of_length_eq_zero same.symm
    simp
  | cons a l₁ ih =>
    obtain ⟨b, l₂, rfl⟩ := List.exists_cons_of_length_eq_add_one same.symm
    rw [List.cons_append, List.cons_append, List.cons_lt_cons_iff, List.cons_lt_cons_iff,
      ih (Nat.succ.inj same), List.cons.injEq]
    tauto

end Order

section Fields
variable {k a b : ℕ}

theorem digit_lt_iff {d e : ℕ} (hd : d < 10) (he : e < 10) : digit d < digit e ↔ d < e := by
  rw [UInt8.lt_iff_toNat_lt, digit_toNat hd, digit_toNat he]
  omega

@[simp] theorem field_length (k n : ℕ) : (field k n).length = k := by
  induction k generalizing n with
  | zero => rfl
  | succ k ih => rw [field, List.length_append, ih, List.length_singleton]

theorem field_isDigit {n : ℕ} {c : UInt8} (h : c ∈ field k n) : isDigit c = true := by
  induction k generalizing n with
  | zero => exact absurd h List.not_mem_nil
  | succ k ih =>
    rcases List.mem_append.mp h with front | last
    · exact ih front
    · rw [List.mem_singleton.mp last]
      exact digit_isDigit (Nat.mod_lt _ (by decide))

theorem div_lt_pow {n : ℕ} (h : n < 10 ^ (k + 1)) : n / 10 < 10 ^ k := by
  rw [Nat.pow_succ] at h
  exact Nat.div_lt_of_lt_mul (by rwa [Nat.mul_comm])

theorem field_inj (ha : a < 10 ^ k) (hb : b < 10 ^ k) (h : field k a = field k b) : a = b := by
  induction k generalizing a b with
  | zero => omega
  | succ k ih =>
    have small : ∀ n : ℕ, n % 10 < 10 := fun n => Nat.mod_lt n (by decide)
    obtain ⟨front, last⟩ := List.append_inj h (by rw [field_length, field_length])
    have high := ih (div_lt_pow ha) (div_lt_pow hb) front
    have low := digit_inj (small a) (small b) (List.singleton_inj.mp last)
    omega

theorem field_lt_iff (ha : a < 10 ^ k) (hb : b < 10 ^ k) : field k a < field k b ↔ a < b := by
  induction k generalizing a b with
  | zero =>
    rw [Nat.pow_zero] at ha hb
    have equal : ¬a < b := by omega
    simp [field, equal]
  | succ k ih =>
    have small : ∀ n : ℕ, n % 10 < 10 := fun n => Nat.mod_lt n (by decide)
    have front : field k (a / 10) = field k (b / 10) ↔ a / 10 = b / 10 :=
      ⟨field_inj (div_lt_pow ha) (div_lt_pow hb), fun h => h ▸ rfl⟩
    rw [field, field, append_lt_append_iff (by rw [field_length, field_length]),
      ih (div_lt_pow ha) (div_lt_pow hb), front, List.cons_lt_cons_iff,
      digit_lt_iff (small a) (small b)]
    simp only [List.not_lt_nil, and_false, or_false]
    omega

theorem field_zero (k : ℕ) : field k 0 = List.replicate k (digit 0) := by
  induction k with
  | zero => rfl
  | succ k ih => rw [field, Nat.zero_div, ih, List.replicate_succ']

theorem ofNat_eq (n : ℕ) :
    ofNat n = (if n / 10 = 0 then [] else ofNat (n / 10)) ++ [digit (n % 10)] := by
  rw [ofNat, lowFirst_eq, List.reverse_cons]
  split_ifs <;> rfl

theorem padded_eq {n : ℕ} (some : 0 < k) (h : n < 10 ^ k) :
    List.replicate (k - (ofNat n).length) (digit 0) ++ ofNat n = field k n := by
  induction k generalizing n with
  | zero => exact absurd some (Nat.lt_irrefl 0)
  | succ k ih =>
    rw [ofNat_eq, field]
    split_ifs with last
    · rw [last, field_zero]
      rfl
    · have positive : 0 < k := by
        rcases Nat.eq_zero_or_pos k with rfl | positive
        · exact absurd (Nat.lt_one_iff.mp (div_lt_pow h)) last
        · exact positive
      rw [List.length_append, List.length_singleton, Nat.add_sub_add_right, ← List.append_assoc,
        ih positive (div_lt_pow h)]

theorem zeroPadded_eq {v : ℤ} (some : 0 < k) (positive : 0 ≤ v) (h : v.natAbs < 10 ^ k) :
    zeroPadded k v = field k v.natAbs := by
  rw [zeroPadded, if_neg (not_lt.mpr positive), padded_eq some h]

theorem lt_ofNat_length {n : ℕ} (h : 10 ^ k ≤ n) : k < (ofNat n).length := by
  have nonzero : n ≠ 0 := by
    rintro rfl
    exact absurd h (Nat.not_le.mpr (Nat.pow_pos (by decide)))
  rw [ofNat, List.length_reverse, lowFirst, if_neg nonzero, List.length_map]
  exact (Nat.lt_digits_length_iff (by decide) n).mpr h

theorem blankPadded_eq {v : ℤ} (positive : 0 ≤ v) (low : 10 ^ k ≤ v.natAbs)
    (high : v.natAbs < 10 ^ (k + 1)) : blankPadded (k + 1) v = field (k + 1) v.natAbs := by
  have size := lt_ofNat_length low
  have full : k + 1 - (ofNat v.natAbs).length = 0 := by omega
  have digits : ofInt v = ofNat v.natAbs := if_neg (not_lt.mpr positive)
  rw [← padded_eq (Nat.succ_pos k) high, blankPadded, digits, full, List.replicate_zero,
    List.replicate_zero]

theorem le_zeroPadded_length (width : ℕ) (v : ℤ) : width ≤ (zeroPadded width v).length := by
  simp only [zeroPadded]
  split_ifs
  · rw [List.length_cons, List.length_append, List.length_replicate]
    omega
  · rw [List.length_append, List.length_replicate]
    omega

theorem le_blankPadded_length (width : ℕ) (v : ℤ) : width ≤ (blankPadded width v).length := by
  rw [blankPadded, List.length_append, List.length_replicate]
  omega

theorem ofInt_char {v : ℤ} {c : UInt8} (h : c ∈ ofInt v) : c = minus ∨ isDigit c = true := by
  unfold ofInt at h
  split_ifs at h
  · exact (List.mem_cons.mp h).imp id ofNat_isDigit
  · exact Or.inr (ofNat_isDigit h)

theorem zeroPadded_char {width : ℕ} {v : ℤ} {c : UInt8} (h : c ∈ zeroPadded width v) :
    c = minus ∨ isDigit c = true := by
  have digits : ∀ k, c ∈ List.replicate k (digit 0) ++ ofNat v.natAbs → isDigit c = true := by
    intro k mem
    rcases List.mem_append.mp mem with zero | rest
    · rw [List.eq_of_mem_replicate zero]
      exact digit_isDigit (by decide)
    · exact ofNat_isDigit rest
  simp only [zeroPadded] at h
  split_ifs at h
  · exact (List.mem_cons.mp h).imp id (digits _)
  · exact Or.inr (digits _ h)

theorem blankPadded_char {width : ℕ} {v : ℤ} {c : UInt8} (h : c ∈ blankPadded width v) :
    c = 32 ∨ c = minus ∨ isDigit c = true :=
  (List.mem_append.mp h).imp List.eq_of_mem_replicate ofInt_char

end Fields

section Records

theorem record_length : {layout : Layout} → {as : List ℕ} → Fits layout as →
    (record layout as).length = (layout.map fun f => f.1 + 1).sum
  | [], [], _ => rfl
  | (width, _) :: layout, n :: as, fits => by
    rw [record, List.length_append, field_length, List.length_cons, record_length fits.2,
      List.map_cons, List.sum_cons]
    omega

theorem record_inj : {layout : Layout} → {as bs : List ℕ} → Fits layout as → Fits layout bs →
    record layout as = record layout bs → as = bs
  | [], [], [], _, _, _ => rfl
  | (width, _) :: layout, a :: as, b :: bs, ha, hb, same => by
    obtain ⟨first, rest⟩ := List.append_inj same (by rw [field_length, field_length])
    rw [field_inj ha.1 hb.1 first, record_inj ha.2 hb.2 (List.tail_eq_of_cons_eq rest)]

/-- Records of one layout compare as their values. -/
theorem record_lt_iff : {layout : Layout} → {as bs : List ℕ} → Fits layout as → Fits layout bs →
    (record layout as < record layout bs ↔ as < bs)
  | [], [], [], _, _ => iff_of_false (List.not_lt_nil _) (List.not_lt_nil _)
  | (width, separator) :: layout, a :: as, b :: bs, ha, hb => by
    have equal : field width a = field width b ↔ a = b :=
      ⟨field_inj ha.1 hb.1, fun same => same ▸ rfl⟩
    rw [record, record, append_lt_append_iff (by rw [field_length, field_length]),
      field_lt_iff ha.1 hb.1, equal, List.cons_lt_cons_self, record_lt_iff ha.2 hb.2,
      List.cons_lt_cons_iff]

end Records

end FixedWidth
