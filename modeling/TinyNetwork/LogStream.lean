import TinyNetwork.Decimal
import TinyNetwork.FixedBuffer

/-! The integers of `logger/LogStream.cc`. `formatInteger` writes the digits behind the
content of the buffer with the last one first, then the sign and a NUL, and turns the
text around in place. The remainders of a negative number are negative, so the digits
stand in a table around `zero`. The loop is cut off by a number of turns. -/
namespace TinyNetwork
open MachineWord MemoryRegion

structure LogStream where
  buffer_ : FixedBuffer kSmallBuffer

inductive IntegerType where
  | short
  | unsignedShort
  | int
  | unsignedInt
  | long
  | unsignedLong
  | longLong
  | unsignedLongLong
  deriving DecidableEq

namespace IntegerType

def bits : IntegerType → ℕ
  | .short => 16
  | .unsignedShort => 16
  | .int => 32
  | .unsignedInt => 32
  | .long => 64
  | .unsignedLong => 64
  | .longLong => 64
  | .unsignedLongLong => 64

def isSigned : IntegerType → Bool
  | .short => true
  | .int => true
  | .long => true
  | .longLong => true
  | _ => false

def Holds (t : IntegerType) (v : ℤ) : Prop :=
  if t.isSigned then -2 ^ (t.bits - 1) ≤ v ∧ v < 2 ^ (t.bits - 1) else 0 ≤ v ∧ v < 2 ^ t.bits

instance (t : IntegerType) (v : ℤ) : Decidable (t.Holds v) := by
  unfold Holds
  infer_instance

def static_cast (t : IntegerType) (v : ℤ) : ℤ :=
  if t.isSigned then Int.bmod v (2 ^ t.bits) else v % 2 ^ t.bits

end IntegerType

namespace LogStream

def kMaxNumericSize : ℕ := 48

def digits : List Byte :=
  [57, 56, 55, 54, 53, 52, 51, 50, 49, 48, 49, 50, 51, 52, 53, 54, 55, 56, 57]

/-- `zero[remainder]`, where `zero` is `digits + 9`. -/
def zero (remainder : ℤ) : Option Byte :=
  if 0 ≤ 9 + remainder then digits[(9 + remainder).toNat]? else none

def formatDigits : ℕ → ℤ → FixedBuffer kSmallBuffer → ℕ →
    Option (FixedBuffer kSmallBuffer × ℕ)
  | 0, _, _, _ => none
  | fuel + 1, num, b, cur =>
    let remainder := num.tmod 10
    (zero remainder).bind fun c =>
    (b.put cur c).bind fun b =>
    let cur := cur + 1
    let num := num.tdiv 10
    if num ≠ 0 then formatDigits fuel num b cur else some (b, cur)

def formatInteger (fuel : ℕ) (s : LogStream) (num : ℤ) : Option LogStream :=
  if s.buffer_.avail ≥ kMaxNumericSize then
    let start := s.buffer_.cur_
    let negative := num < 0
    (formatDigits fuel num s.buffer_ start).bind fun (b, cur) =>
    (if negative then (b.put cur Decimal.minus).map fun b => (b, cur + 1) else some (b, cur)).bind
      fun (b, cur) =>
    (b.put cur 0).bind fun b =>
    (b.reverse start cur).bind fun b =>
    (b.add (cur - start)).map fun b => ⟨b⟩
  else some s

/-- `operator<<` on the integer types: the two short ones go through an `int`. -/
def insert (fuel : ℕ) (s : LogStream) : IntegerType → ℤ → Option LogStream
  | .short, v => s.formatInteger fuel (IntegerType.int.static_cast v)
  | .unsignedShort, v => s.formatInteger fuel (IntegerType.unsignedInt.static_cast v)
  | .int, v => s.formatInteger fuel v
  | .unsignedInt, v => s.formatInteger fuel v
  | .long, v => s.formatInteger fuel v
  | .unsignedLong, v => s.formatInteger fuel v
  | .longLong, v => s.formatInteger fuel v
  | .unsignedLongLong, v => s.formatInteger fuel v

section Digits

theorem zero_eq {remainder : ℤ} (low : -10 < remainder) (high : remainder < 10) :
    zero remainder = some (Decimal.digit remainder.natAbs) := by
  have table : ∀ i : ℕ, i < 19 →
      zero ((i : ℤ) - 9) = some (Decimal.digit ((i : ℤ) - 9).natAbs) := by decide
  have entry := table (remainder + 9).toNat (by omega)
  have same : ((remainder + 9).toNat : ℤ) - 9 = remainder := by omega
  rwa [same] at entry

theorem zero_tmod (num : ℤ) : zero (num.tmod 10) = some (Decimal.digit (num.natAbs % 10)) := by
  have size : (num.tmod 10).natAbs = num.natAbs % 10 := Int.natAbs_tmod num 10
  have small : num.natAbs % 10 < 10 := Nat.mod_lt _ (by decide)
  rw [zero_eq (by omega) (by omega), size]

structure Wrote (b b' : FixedBuffer kSmallBuffer) (off : ℕ) (bytes : List Byte) : Prop where
  data : b'.data_ = overwrite b.data_ off bytes
  cursor : b'.cur_ = b.cur_

variable {b b' : FixedBuffer kSmallBuffer} {off : ℕ} {bytes : List Byte}

theorem put_wrote (h : Wrote b b' off bytes) (room : off + bytes.length < kSmallBuffer) (c : Byte) :
    ∃ b'', b'.put (off + bytes.length) c = some b'' ∧ Wrote b b'' off (bytes ++ [c]) := by
  refine ⟨_, if_pos room, ?_, h.cursor⟩
  have inside : off + bytes.length < b'.data_.length := b'.sized.symm ▸ room
  change b'.data_.set (off + bytes.length) c = overwrite b.data_ off (bytes ++ [c])
  rw [set_eq_overwrite inside, h.data]
  exact overwrite_append (by rw [b.sized]; exact room)

theorem formatDigits_wrote {fuel : ℕ} {num : ℤ} (h : Wrote b b' off bytes)
    (turns : (Decimal.lowFirst num.natAbs).length ≤ fuel)
    (room : off + bytes.length + (Decimal.lowFirst num.natAbs).length ≤ kSmallBuffer) :
    ∃ b'', formatDigits fuel num b' (off + bytes.length) =
        some (b'', off + bytes.length + (Decimal.lowFirst num.natAbs).length) ∧
      Wrote b b'' off (bytes ++ Decimal.lowFirst num.natAbs) := by
  induction fuel generalizing num b' bytes with
  | zero =>
    have some_ := List.length_pos_iff.mpr (Decimal.lowFirst_ne_nil num.natAbs)
    omega
  | succ fuel ih =>
    have rest : (num.tdiv 10).natAbs = num.natAbs / 10 := Int.natAbs_tdiv num 10
    have done : num.tdiv 10 = 0 ↔ num.natAbs / 10 = 0 := by
      rw [← rest, Int.natAbs_eq_zero]
    rw [Decimal.lowFirst_eq, List.length_cons] at turns room
    obtain ⟨b₁, put, wrote⟩ := put_wrote h (by omega) (Decimal.digit (num.natAbs % 10))
    rw [formatDigits, zero_tmod, Option.bind_some, put, Option.bind_some]
    rw [Decimal.lowFirst_eq num.natAbs]
    by_cases last : num.natAbs / 10 = 0
    · rw [if_neg (not_not.mpr (done.mpr last)), if_pos last]
      exact ⟨b₁, rfl, wrote⟩
    · rw [if_neg last, ← rest] at turns room
      rw [if_pos (mt done.mp last), if_neg last, ← rest]
      have fewer : (Decimal.lowFirst (num.tdiv 10).natAbs).length ≤ fuel := by omega
      have behind : off + (bytes ++ [Decimal.digit (num.natAbs % 10)]).length +
          (Decimal.lowFirst (num.tdiv 10).natAbs).length ≤ kSmallBuffer := by
        rw [List.length_append, List.length_singleton]
        omega
      obtain ⟨b₂, loop, wrote₂⟩ := ih wrote fewer behind
      refine ⟨b₂, ?_, ?_⟩
      · rw [List.length_append, List.length_singleton, ← Nat.add_assoc] at loop
        rw [loop, List.length_cons]
        congr 2
        omega
      · rw [List.append_assoc] at wrote₂
        exact wrote₂

end Digits

section Text
variable {s : LogStream} {num : ℤ} {fuel : ℕ}

def backward (num : ℤ) : List Byte :=
  Decimal.lowFirst num.natAbs ++ if num < 0 then [Decimal.minus] else []

theorem backward_reverse (num : ℤ) : (backward num).reverse = Decimal.ofInt num := by
  unfold backward Decimal.ofInt Decimal.ofNat
  split_ifs
  · rw [List.reverse_append]
    rfl
  · rw [List.append_nil]

theorem backward_length_le {num : ℤ} (small : (Decimal.lowFirst num.natAbs).length ≤ 20) :
    (backward num).length ≤ 21 := by
  unfold backward
  rw [List.length_append]
  split_ifs
  · rw [List.length_singleton]
    omega
  · rw [List.length_nil]
    omega

theorem sign_wrote {b b' : FixedBuffer kSmallBuffer} {off : ℕ}
    (h : Wrote b b' off (Decimal.lowFirst num.natAbs))
    (room : off + (backward num).length ≤ kSmallBuffer) :
    ∃ b'', (if num < 0 then
        (b'.put (off + (Decimal.lowFirst num.natAbs).length) Decimal.minus).map fun b =>
          (b, off + (Decimal.lowFirst num.natAbs).length + 1)
        else some (b', off + (Decimal.lowFirst num.natAbs).length)) =
        some (b'', off + (backward num).length) ∧ Wrote b b'' off (backward num) := by
  unfold backward at room ⊢
  split_ifs at room ⊢ with negative
  · rw [List.length_append, List.length_singleton] at room ⊢
    obtain ⟨b'', put, wrote⟩ := put_wrote h (by omega) Decimal.minus
    rw [put]
    exact ⟨b'', rfl, wrote⟩
  · rw [List.append_nil]
    exact ⟨b', rfl, h⟩

theorem reverse_add {b b' : FixedBuffer kSmallBuffer} {off : ℕ} {text rest : List Byte}
    (h : Wrote b b' off (text ++ rest)) (cursor : b.cur_ = off)
    (room : off + (text ++ rest).length ≤ kSmallBuffer) :
    ∃ b'', ((b'.reverse off (off + text.length)).bind fun b =>
        b.add (off + text.length - off)) = some b'' ∧
      b''.data_ = overwrite b.data_ off (text.reverse ++ rest) ∧
      b''.cur_ = off + text.length := by
  have inside : off + text.length ≤ kSmallBuffer := by
    rw [List.length_append] at room
    omega
  have size : off + text.length - off = text.length := Nat.add_sub_cancel_left off text.length
  have at_ : b'.cur_ = off := h.cursor.trans cursor
  rw [FixedBuffer.reverse, dif_pos ⟨Nat.le_add_right _ _, inside⟩, Option.bind_some,
    FixedBuffer.add, size, dif_pos (by simpa only [at_] using inside)]
  refine ⟨_, rfl, ?_, congrArg (fun i => i + text.length) at_⟩
  change reverseRange b'.data_ off (off + text.length) = _
  rw [h.data]
  exact reverseRange_overwrite (b.sized.symm ▸ room)

theorem space_of_room (room : kMaxNumericSize ≤ s.buffer_.avail) :
    s.buffer_.cur_ + 48 ≤ kSmallBuffer := by
  have within := s.buffer_.within
  unfold kMaxNumericSize FixedBuffer.avail at room
  omega

/-- With room for the longest number, its text goes behind the content. -/
theorem formatInteger_room (small : (Decimal.lowFirst num.natAbs).length ≤ 20)
    (turns : 20 ≤ fuel) (room : kMaxNumericSize ≤ s.buffer_.avail) :
    ∃ s', s.formatInteger fuel num = some s' ∧
      s'.buffer_.data_ =
        overwrite s.buffer_.data_ s.buffer_.cur_ (Decimal.ofInt num ++ [0]) ∧
      s'.buffer_.cur_ = s.buffer_.cur_ + (Decimal.ofInt num).length := by
  have short := backward_length_le small
  have space := space_of_room room
  have nothing : Wrote s.buffer_ s.buffer_ s.buffer_.cur_ [] := by
    refine ⟨?_, rfl⟩
    rw [overwrite_of_le (by rw [s.buffer_.sized]; exact s.buffer_.within), List.append_nil,
      List.length_nil, Nat.add_zero, List.take_append_drop]
  have enough : (Decimal.lowFirst num.natAbs).length ≤ fuel := small.trans turns
  obtain ⟨b₁, loop, wrote₁⟩ := formatDigits_wrote nothing enough (by
    rw [List.length_nil]
    omega)
  rw [List.nil_append] at wrote₁
  rw [List.length_nil, Nat.add_zero] at loop
  obtain ⟨b₂, sign, wrote₂⟩ := sign_wrote wrote₁ (by omega)
  obtain ⟨b₃, nul, wrote₃⟩ := put_wrote wrote₂ (by omega) 0
  obtain ⟨b₄, turned, data, cursor⟩ := reverse_add wrote₃ rfl (by
    rw [List.length_append, List.length_singleton]
    omega)
  refine ⟨⟨b₄⟩, ?_, ?_, ?_⟩
  · rw [formatInteger, if_pos room]
    obtain ⟨b, reversed, added⟩ := Option.bind_eq_some_iff.mp turned
    simp only [loop, Option.bind_some, sign, nul, reversed, added, Option.map_some]
  · rw [data, backward_reverse]
  · rw [cursor, ← backward_reverse, List.length_reverse]

theorem formatInteger_full (full : ¬kMaxNumericSize ≤ s.buffer_.avail) :
    s.formatInteger fuel num = some s := if_neg full

end Text

section Types
variable {t : IntegerType} {v : ℤ}

theorem natAbs_lt (range : t.Holds v) : v.natAbs < 10 ^ 20 := by
  unfold IntegerType.Holds at range
  cases t <;> simp only [IntegerType.isSigned, IntegerType.bits, if_true, Bool.false_eq_true,
    if_false] at range <;> omega

theorem static_cast_short (range : IntegerType.short.Holds v) :
    IntegerType.int.static_cast v = v := by
  simp only [IntegerType.Holds, IntegerType.isSigned, IntegerType.bits, if_true] at range
  change Int.bmod v (2 ^ 32) = v
  exact Int.bmod_eq_of_le (by omega) (by omega)

theorem static_cast_unsignedShort (range : IntegerType.unsignedShort.Holds v) :
    IntegerType.unsignedInt.static_cast v = v := by
  simp only [IntegerType.Holds, IntegerType.isSigned, IntegerType.bits, Bool.false_eq_true,
    if_false] at range
  change v % 2 ^ 32 = v
  exact Int.emod_eq_of_lt range.1 (by omega)

theorem insert_eq (s : LogStream) (fuel : ℕ) (range : t.Holds v) :
    s.insert fuel t v = s.formatInteger fuel v := by
  cases t with
  | short => rw [insert, static_cast_short range]
  | unsignedShort => rw [insert, static_cast_unsignedShort range]
  | _ => rfl

theorem ofInt_short (range : t.Holds v) : (Decimal.ofInt v).length < kMaxNumericSize :=
  lt_of_le_of_lt (Decimal.ofInt_length (by decide) (natAbs_lt range)) (by decide)

theorem nul_fits {s : LogStream} {text : List Byte} (short : text.length < kMaxNumericSize)
    (room : kMaxNumericSize ≤ s.buffer_.avail) :
    s.buffer_.cur_ + (text ++ [0]).length ≤ kSmallBuffer := by
  have space := space_of_room room
  have small : text.length < 48 := short
  rw [List.length_append, List.length_singleton]
  omega

/-- Every integer is appended as its decimal text, which reads back as the integer; nothing
outside the `kMaxNumericSize` bytes from the cursor on is touched. A stream with less room
stays as it is. -/
theorem integers_faithful (s : LogStream) (t : IntegerType) (v : ℤ) (fuel : ℕ)
    (range : t.Holds v) (turns : 20 ≤ fuel) :
    (kMaxNumericSize ≤ s.buffer_.avail → ∃ s', s.insert fuel t v = some s' ∧
      s'.buffer_.content = s.buffer_.content ++ Decimal.ofInt v ∧
      ((Decimal.ofInt v).head? = some Decimal.minus ↔ v < 0) ∧
      Decimal.parse (Decimal.ofInt v) = some v ∧
      ∀ i, i < s.buffer_.cur_ ∨ s.buffer_.cur_ + kMaxNumericSize ≤ i →
        s'.buffer_.data_[i]? = s.buffer_.data_[i]?) ∧
    (¬kMaxNumericSize ≤ s.buffer_.avail → s.insert fuel t v = some s) := by
  rw [insert_eq s fuel range]
  refine ⟨fun room => ?_, formatInteger_full⟩
  have short : (Decimal.ofInt v).length < 48 := ofInt_short range
  have written := nul_fits short room
  obtain ⟨s', done, data, cursor⟩ := formatInteger_room
    (Decimal.lowFirst_length (by decide) (natAbs_lt range)) turns room
  refine ⟨s', done, ?_, Decimal.ofInt_head v, Decimal.parse_ofInt v, fun i outside => ?_⟩
  · exact FixedBuffer.written_content data cursor written
  · rw [data, getElem?_overwrite (written.trans_eq s.buffer_.sized.symm)]
    refine outside.imp id fun behind => le_trans ?_ behind
    rw [List.length_append, List.length_singleton]
    unfold kMaxNumericSize
    omega

def empty : LogStream :=
  ⟨FixedBuffer.construct (List.replicate kSmallBuffer 0) List.length_replicate⟩

theorem integers_faithful_least :
    ∃ s', empty.insert 20 .longLong (-2 ^ 63) = some s' ∧
      s'.buffer_.content = [45, 57, 50, 50, 51, 51, 55, 50, 48, 51, 54, 56, 53, 52, 55, 55, 53, 56,
        48, 56] := by
  have text : Decimal.ofInt (-2 ^ 63) = [45, 57, 50, 50, 51, 51, 55, 50, 48, 51, 54, 56, 53, 52,
      55, 55, 53, 56, 48, 56] := by decide +kernel
  have room : kMaxNumericSize ≤ empty.buffer_.avail := by decide
  obtain ⟨s', inserted, content, -⟩ :=
    (integers_faithful empty .longLong (-2 ^ 63) 20 (by decide) le_rfl).1 room
  rw [text, empty, FixedBuffer.construct_content, List.nil_append] at content
  exact ⟨s', inserted, content⟩

end Types

end LogStream
end TinyNetwork
