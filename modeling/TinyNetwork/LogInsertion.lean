import TinyNetwork.BoundedText
import TinyNetwork.ByteMemory
import TinyNetwork.LogStream

/-! The insertions of `logger/LogStream.cc`. An insertion is a call with its argument; a
pointer is an address in the memory that the insertion finds. The outcome of a call is
the stream and the addresses that were read for it; a write outside the array of the
stream has no outcome. -/
namespace TinyNetwork
open BoundedText ByteMemory MachineWord MemoryRegion

/-- The conversion of a `float`, and the text that `"%.12g"` gives a `double`, on the bits
of the two. -/
structure FloatFormat where
  static_cast : UInt32 → UInt64
  text : UInt64 → List Byte

inductive Insertion where
  | integer (t : IntegerType) (v : ℤ)
  | float (v : UInt32)
  | double (v : UInt64)
  | char (c : Byte)
  | pointer (data : ℕ)
  | cString (str : ℕ)
  | unsignedCString (str : ℕ)
  | string (data size : ℕ)
  | buffer (buf : FixedBuffer kSmallBuffer)
  | dataTemplate (data_ : ℕ) (len_ : ℤ)
  | append (data : ℕ) (len : ℤ)

def FixedBuffer.appendFrom {SIZE : ℕ} (m : Memory) (b : FixedBuffer SIZE) (buf len : ℕ) :
    Option (FixedBuffer SIZE × List ℕ) :=
  if len < b.avail then
    ((b.write (read m buf len)).bind fun b => b.add len).map fun b => (b, addresses buf len)
  else some (b, [])

namespace LogStream

def null : List Byte := [40, 110, 117, 108, 108, 41]

section Code
variable (fuel : ℕ) (f : FloatFormat) (m : Memory) (s : LogStream)

/-- `snprintf` writes at most `kMaxNumericSize` bytes with the NUL, and returns the length
of the whole text. -/
def insertDouble (v : UInt64) : Option LogStream :=
  if s.buffer_.avail ≥ kMaxNumericSize then
    let text := f.text v
    ((s.buffer_.write (text.take (kMaxNumericSize - 1) ++ [0])).bind fun b =>
      b.add text.length).map fun b => ⟨b⟩
  else some s

def appendFrom (data len : ℕ) : Option (LogStream × List ℕ) :=
  (s.buffer_.appendFrom m data len).map fun (b, reads) => (⟨b⟩, reads)

def insertCString (str : ℕ) : Option (LogStream × List ℕ) :=
  if str ≠ 0 then
    (strlen fuel m str).bind fun len =>
    (s.appendFrom m str len).map fun (s, copied) => (s, addresses str (len + 1) ++ copied)
  else some (⟨s.buffer_.append null⟩, [])

/-- A generic pointer is cast to a `const char*`; an `int` length is converted to a size. -/
def insertValue : Insertion → Option (LogStream × List ℕ)
  | .integer t v => (s.insert fuel t v).map fun s => (s, [])
  | .float v => (s.insertDouble f (f.static_cast v)).map fun s => (s, [])
  | .double v => (s.insertDouble f v).map fun s => (s, [])
  | .char c => some (⟨s.buffer_.append [c]⟩, [])
  | .pointer data => s.insertCString fuel m data
  | .cString str => s.insertCString fuel m str
  | .unsignedCString str => s.insertCString fuel m str
  | .string data size => s.appendFrom m data size
  | .buffer buf => some (⟨s.buffer_.insert buf⟩, [])
  | .dataTemplate data_ len_ => s.appendFrom m data_ (widen len_)
  | .append data len => s.appendFrom m data (widen len)

def insertValues : LogStream → List Insertion → Option (LogStream × List ℕ)
  | s, [] => some (s, [])
  | s, i :: rest =>
    (s.insertValue fuel f m i).bind fun (s, here) =>
    (insertValues s rest).map fun (s, later) => (s, here ++ later)

end Code

section Rendering

def numeric (text : List Byte) (short : text.length ≤ kMaxNumericSize) : Piece Byte :=
  ⟨kMaxNumericSize, text, short⟩

def plain (text : List Byte) : Piece Byte := ⟨text.length + 1, text, Nat.le_succ _⟩

def Shows (m : Memory) (str : ℕ) (text : List Byte) : Prop :=
  if str = 0 then text = null else Spells m str text

instance (m : Memory) (str : ℕ) (text : List Byte) : Decidable (Shows m str text) := by
  unfold Shows
  infer_instance

/-- Integers are of their types, and C strings end. -/
def Valid (m : Memory) : Insertion → Prop
  | .integer t v => t.Holds v
  | .pointer data => ∃ text, Shows m data text
  | .cString str => ∃ text, Shows m str text
  | .unsignedCString str => ∃ text, Shows m str text
  | _ => True

inductive Renders (f : FloatFormat) (m : Memory) : Insertion → Piece Byte → Prop
  | integer {t v} (range : t.Holds v) (short : (Decimal.ofInt v).length ≤ kMaxNumericSize) :
    Renders f m (.integer t v) (numeric (Decimal.ofInt v) short)
  | float {v} (short : (f.text (f.static_cast v)).length < kMaxNumericSize) :
    Renders f m (.float v) (numeric (f.text (f.static_cast v)) short.le)
  | double {v} (short : (f.text v).length < kMaxNumericSize) :
    Renders f m (.double v) (numeric (f.text v) short.le)
  | char {c} : Renders f m (.char c) (plain [c])
  | pointer {data text} (shows : Shows m data text) : Renders f m (.pointer data) (plain text)
  | cString {str text} (shows : Shows m str text) : Renders f m (.cString str) (plain text)
  | unsignedCString {str text} (shows : Shows m str text) :
    Renders f m (.unsignedCString str) (plain text)
  | string {data size} : Renders f m (.string data size) (plain (read m data size))
  | buffer {buf} : Renders f m (.buffer buf) (plain buf.toString)
  | dataTemplate {data_ len_} :
    Renders f m (.dataTemplate data_ len_) (plain (read m data_ (widen len_)))
  | append {data len} : Renders f m (.append data len) (plain (read m data (widen len)))

variable {SIZE : ℕ} {b : FixedBuffer SIZE} {s : LogStream} {f : FloatFormat} {m : Memory}
  {fuel : ℕ}

theorem room_iff (n : ℕ) : n ≤ b.avail ↔ b.content.length + n ≤ SIZE := by
  have within := b.within
  rw [FixedBuffer.content_length, FixedBuffer.avail]
  omega

theorem append_offer (text : List Byte) :
    (b.append text).content = offer SIZE b.content (plain text) := by
  by_cases fits : text.length < b.avail
  · rw [FixedBuffer.append_content fits, offer_taken ((room_iff (text.length + 1)).mp fits)]
    rfl
  · rw [FixedBuffer.append_refused fits, offer_dropped (mt (room_iff (text.length + 1)).mpr fits)]

theorem offer_plain {cap : ℕ} {content text : List Byte}
    (room : content.length + text.length < cap) :
    offer cap content (plain text) = content ++ text := offer_taken room

theorem appendFrom_eq (m : Memory) (b : FixedBuffer SIZE) (buf len : ℕ) :
    ∃ reads, b.appendFrom m buf len = some (b.append (read m buf len), reads) := by
  by_cases fits : len < b.avail
  · have room : b.cur_ + len ≤ SIZE := by
      unfold FixedBuffer.avail at fits
      omega
    have room_ : (b.poke (read m buf len)).cur_ + len ≤ SIZE := room
    refine ⟨addresses buf len, ?_⟩
    rw [FixedBuffer.appendFrom, if_pos fits, FixedBuffer.write, read_length, if_pos room,
      Option.bind_some, FixedBuffer.add, dif_pos room_, Option.map_some]
    simp only [FixedBuffer.append, read_length, fits, dif_pos]
    rfl
  · refine ⟨[], ?_⟩
    rw [FixedBuffer.appendFrom, if_neg fits, FixedBuffer.append_refused (by rwa [read_length])]

theorem insertInteger_spec {t : IntegerType} {v : ℤ} (range : t.Holds v)
    (short : (Decimal.ofInt v).length ≤ kMaxNumericSize) (turns : 20 ≤ fuel) :
    ∃ s', s.insert fuel t v = some s' ∧
      s'.buffer_.content =
        offer kSmallBuffer s.buffer_.content (numeric (Decimal.ofInt v) short) := by
  rw [insert_eq s fuel range]
  by_cases room : kMaxNumericSize ≤ s.buffer_.avail
  · obtain ⟨s', done, data, cursor⟩ := formatInteger_room
      (Decimal.lowFirst_length (by decide) (natAbs_lt range)) turns room
    refine ⟨s', done, ?_⟩
    rw [offer_taken ((room_iff _).mp room)]
    exact FixedBuffer.written_content data cursor (nul_fits (ofInt_short range) room)
  · exact ⟨s, formatInteger_full room, (offer_dropped (mt (room_iff _).mpr room)).symm⟩

theorem write_add {bytes : List Byte} {len : ℕ} (fits : b.cur_ + bytes.length ≤ SIZE)
    (inside : len ≤ bytes.length) :
    ∃ b', ((b.write bytes).bind fun b => b.add len) = some b' ∧
      b'.data_ = overwrite b.data_ b.cur_ bytes ∧ b'.cur_ = b.cur_ + len := by
  have moved : (b.poke bytes).cur_ + len ≤ SIZE :=
    (Nat.add_le_add_left inside b.cur_).trans fits
  refine ⟨{ b.poke bytes with cur_ := (b.poke bytes).cur_ + len, within := moved }, ?_, rfl, rfl⟩
  rw [FixedBuffer.write, if_pos fits, Option.bind_some, FixedBuffer.add, dif_pos moved]

theorem insertDouble_spec {v : UInt64} (short : (f.text v).length < kMaxNumericSize) :
    ∃ s', s.insertDouble f v = some s' ∧
      s'.buffer_.content =
        offer kSmallBuffer s.buffer_.content (numeric (f.text v) short.le) := by
  by_cases room : kMaxNumericSize ≤ s.buffer_.avail
  · have whole : (f.text v).take (kMaxNumericSize - 1) = f.text v :=
      List.take_of_length_le (Nat.le_sub_one_of_lt short)
    have fits := nul_fits short room
    have inside : (f.text v).length ≤ (f.text v ++ [0]).length := by
      rw [List.length_append]
      omega
    obtain ⟨b, done, data, cursor⟩ := write_add fits inside
    refine ⟨⟨b⟩, ?_, ?_⟩
    · simp only [insertDouble, if_pos room, whole, done, Option.map_some]
    · rw [offer_taken ((room_iff _).mp room)]
      exact FixedBuffer.written_content data cursor fits
  · exact ⟨s, if_neg room, (offer_dropped (mt (room_iff _).mpr room)).symm⟩

theorem insertCString_spec {str : ℕ} {text : List Byte} (shows : Shows m str text)
    (turns : text.length < fuel) :
    ∃ s' reads, s.insertCString fuel m str = some (s', reads) ∧
      s'.buffer_.content = offer kSmallBuffer s.buffer_.content (plain text) := by
  unfold Shows at shows
  split_ifs at shows with isNull
  · refine ⟨⟨s.buffer_.append null⟩, [], if_neg (not_not.mpr isNull), ?_⟩
    rw [shows]
    exact append_offer null
  · obtain ⟨copied, appended⟩ := appendFrom_eq m s.buffer_ str text.length
    refine ⟨⟨s.buffer_.append text⟩, addresses str (text.length + 1) ++ copied, ?_,
      append_offer text⟩
    rw [shows.read_eq] at appended
    rw [insertCString, if_pos isNull, shows.strlen_eq turns, Option.bind_some, appendFrom, appended,
      Option.map_some, Option.map_some]

theorem appendFrom_spec (data len : ℕ) :
    ∃ s' reads, s.appendFrom m data len = some (s', reads) ∧
      s'.buffer_.content = offer kSmallBuffer s.buffer_.content (plain (read m data len)) := by
  obtain ⟨reads, appended⟩ := appendFrom_eq m s.buffer_ data len
  refine ⟨⟨s.buffer_.append (read m data len)⟩, reads, ?_, append_offer _⟩
  rw [appendFrom, appended, Option.map_some]

theorem insertValue_spec {i : Insertion} {piece : Piece Byte} (renders : Renders f m i piece)
    (turns : 20 + piece.text.length < fuel) :
    ∃ s' reads, s.insertValue fuel f m i = some (s', reads) ∧
      s'.buffer_.content = offer kSmallBuffer s.buffer_.content piece := by
  cases renders with
  | integer range short =>
    have enough : 20 ≤ fuel := by omega
    obtain ⟨s', done, content⟩ := insertInteger_spec (s := s) range short enough
    exact ⟨s', [], by rw [insertValue, done, Option.map_some], content⟩
  | float short =>
    obtain ⟨s', done, content⟩ := insertDouble_spec (s := s) short
    exact ⟨s', [], by rw [insertValue, done, Option.map_some], content⟩
  | double short =>
    obtain ⟨s', done, content⟩ := insertDouble_spec (s := s) short
    exact ⟨s', [], by rw [insertValue, done, Option.map_some], content⟩
  | char => exact ⟨_, [], rfl, append_offer _⟩
  | @pointer data text shows =>
    exact insertCString_spec shows (Nat.lt_of_le_of_lt (Nat.le_add_left text.length 20) turns)
  | @cString str text shows =>
    exact insertCString_spec shows (Nat.lt_of_le_of_lt (Nat.le_add_left text.length 20) turns)
  | @unsignedCString str text shows =>
    exact insertCString_spec shows (Nat.lt_of_le_of_lt (Nat.le_add_left text.length 20) turns)
  | string => exact appendFrom_spec _ _
  | buffer => exact ⟨_, [], rfl, append_offer _⟩
  | dataTemplate => exact appendFrom_spec _ _
  | append => exact appendFrom_spec _ _

theorem Renders.need_le {i : Insertion} {piece : Piece Byte} (renders : Renders f m i piece) :
    piece.need ≤ piece.text.length + kMaxNumericSize := by
  cases renders with
  | integer | float | double => exact Nat.le_add_left _ _
  | _ => exact Nat.add_le_add_left (by decide) _

theorem Renders.need_le_all {values : List Insertion} {pieces : List (Piece Byte)}
    (renders : List.Forall₂ (Renders f m) values pieces) :
    ∀ p ∈ pieces, p.need ≤ p.text.length + kMaxNumericSize := by
  induction renders with
  | nil => exact fun p mem => absurd mem List.not_mem_nil
  | cons first _ ih => exact List.forall_mem_cons.mpr ⟨first.need_le, ih⟩

theorem insertValues_spec {values : List Insertion} {pieces : List (Piece Byte)}
    (renders : List.Forall₂ (Renders f m) values pieces)
    (turns : 20 + (pieces.flatMap Piece.text).length < fuel) :
    ∃ s' reads, s.insertValues fuel f m values = some (s', reads) ∧
      s'.buffer_.content = offerAll kSmallBuffer s.buffer_.content pieces := by
  induction renders generalizing s with
  | nil => exact ⟨s, [], rfl, rfl⟩
  | @cons i piece values pieces first _ ih =>
    rw [List.flatMap_cons, List.length_append] at turns
    have forFirst : 20 + piece.text.length < fuel := by omega
    have forRest : 20 + (pieces.flatMap Piece.text).length < fuel := by omega
    obtain ⟨s₁, here, inserted, content₁⟩ := insertValue_spec (s := s) first forFirst
    obtain ⟨s₂, later, rest, content₂⟩ := ih (s := s₁) forRest
    refine ⟨s₂, here ++ later, ?_, ?_⟩
    · simp only [insertValues, inserted, Option.bind_some, rest, Option.map_some]
    · rw [content₂, content₁, offerAll_cons]

theorem Valid.renders (short : ∀ v, (f.text v).length < kMaxNumericSize) {i : Insertion}
    (valid : Valid m i) : ∃ piece, Renders f m i piece := by
  cases i with
  | integer t v => exact ⟨_, .integer valid (ofInt_short valid).le⟩
  | float v => exact ⟨_, .float (short _)⟩
  | double v => exact ⟨_, .double (short v)⟩
  | char c => exact ⟨_, .char⟩
  | pointer data =>
    obtain ⟨text, shows⟩ := valid
    exact ⟨plain text, .pointer shows⟩
  | cString str =>
    obtain ⟨text, shows⟩ := valid
    exact ⟨plain text, .cString shows⟩
  | unsignedCString str =>
    obtain ⟨text, shows⟩ := valid
    exact ⟨plain text, .unsignedCString shows⟩
  | string data size => exact ⟨_, .string⟩
  | buffer buf => exact ⟨_, .buffer⟩
  | dataTemplate data_ len_ => exact ⟨_, .dataTemplate⟩
  | append data len => exact ⟨_, .append⟩

theorem Valid.renders_all (short : ∀ v, (f.text v).length < kMaxNumericSize)
    {values : List Insertion} (valid : ∀ i ∈ values, Valid m i) :
    ∃ pieces, List.Forall₂ (Renders f m) values pieces := by
  induction values with
  | nil => exact ⟨[], .nil⟩
  | cons i values ih =>
    obtain ⟨piece, first⟩ := (valid i List.mem_cons_self).renders short
    obtain ⟨pieces, rest⟩ := ih fun j mem => valid j (List.mem_cons_of_mem i mem)
    exact ⟨piece :: pieces, .cons first rest⟩

end Rendering

section Whole

def fresh (data : List Byte) (sized : data.length = kSmallBuffer) : LogStream :=
  ⟨FixedBuffer.construct data sized⟩

@[simp] theorem fresh_content (data : List Byte) (sized : data.length = kSmallBuffer) :
    (fresh data sized).buffer_.content = [] := FixedBuffer.construct_content data sized

/-- Any sequence of insertions goes through without a write outside the array, and so does
every part of it from the start. The content is the texts of some of the insertions, in
order; the next insertion adds its text to it or leaves it as it is. -/
theorem insertions_whole (f : FloatFormat) (m : Memory) (values : List Insertion)
    (data : List Byte) (sized : data.length = kSmallBuffer)
    (short : ∀ v, (f.text v).length < kMaxNumericSize) (valid : ∀ i ∈ values, Valid m i) :
    ∃ enough, ∀ fuel ≥ enough, ∀ seen rest, seen ++ rest = values →
      ∃ s reads, (fresh data sized).insertValues fuel f m seen = some (s, reads) ∧
        s.buffer_.data_.length = kSmallBuffer ∧ s.buffer_.cur_ ≤ kSmallBuffer ∧
        (∃ kept pieces, List.Sublist kept seen ∧ List.Forall₂ (Renders f m) kept pieces ∧
          s.buffer_.content = pieces.flatMap Piece.text) ∧
        ∀ i later, rest = i :: later → ∃ s' reads', s.insertValue fuel f m i = some (s', reads') ∧
          (s'.buffer_.content = s.buffer_.content ∨ ∃ piece, Renders f m i piece ∧
            s'.buffer_.content = s.buffer_.content ++ piece.text) := by
  obtain ⟨pieces, renders⟩ := Valid.renders_all short valid
  refine ⟨21 + (pieces.flatMap Piece.text).length, fun fuel turns seen rest split => ?_⟩
  have front := List.forall₂_take seen.length renders
  have behind := List.forall₂_drop seen.length renders
  rw [← split, List.take_left] at front
  rw [← split, List.drop_left] at behind
  rw [← List.take_append_drop seen.length pieces, List.flatMap_append, List.length_append] at turns
  generalize pieces.take seen.length = before at front turns
  generalize pieces.drop seen.length = after at behind turns
  obtain ⟨s, reads, done, content⟩ :=
    insertValues_spec (s := fresh data sized) front (by omega : _ < fuel)
  obtain ⟨kept, taken, sub, each, held⟩ := offerAll_kept front
  refine ⟨s, reads, done, s.buffer_.sized, s.buffer_.within, ⟨kept, taken, sub, each, ?_⟩, ?_⟩
  · rw [content, held]
    rfl
  · rintro i later rfl
    obtain ⟨piece, _, first, -, rfl⟩ := List.forall₂_cons_left_iff.mp behind
    rw [List.flatMap_cons, List.length_append] at turns
    obtain ⟨s', reads', inserted, offered⟩ :=
      insertValue_spec (s := s) first (by omega : _ < fuel)
    refine ⟨s', reads', inserted, ?_⟩
    rw [offered]
    exact (offer_cases piece).imp id fun added => ⟨piece, first, added⟩

def zeroFormat : FloatFormat := ⟨fun _ => 0, fun _ => [48]⟩

def letterAt (p : ℕ) : Memory := fun q => if q = p then 65 else 0

theorem insertions_whole_mixture :
    ∃ fuel s reads, (fresh (List.replicate kSmallBuffer 0) List.length_replicate).insertValues fuel
        zeroFormat (letterAt 1000)
        [.integer .long (-5), .double 0, .char 32, .cString 1000, .string 1000 1,
          .dataTemplate 1000 (-1), .append 1000 1] = some (s, reads) ∧
      s.buffer_.cur_ ≤ kSmallBuffer ∧
      ∃ kept pieces, List.Sublist kept [.integer .long (-5), .double 0, .char 32, .cString 1000,
          .string 1000 1, .dataTemplate 1000 (-1), .append 1000 1] ∧
        List.Forall₂ (Renders zeroFormat (letterAt 1000)) kept pieces ∧
        s.buffer_.content = pieces.flatMap Piece.text := by
  have valid : ∀ i ∈ [Insertion.integer .long (-5), .double 0, .char 32, .cString 1000,
      .string 1000 1, .dataTemplate 1000 (-1), .append 1000 1], Valid (letterAt 1000) i := by
    simp only [List.forall_mem_cons, Valid, List.not_mem_nil, IsEmpty.forall_iff, implies_true,
      true_and, and_true]
    exact ⟨by decide, [65], by decide⟩
  obtain ⟨enough, whole⟩ := insertions_whole zeroFormat (letterAt 1000) _
    (List.replicate kSmallBuffer 0) List.length_replicate (fun _ => (by decide : 1 < 48)) valid
  obtain ⟨s, reads, done, -, within, kept, -⟩ := whole enough le_rfl _ [] (List.append_nil _)
  exact ⟨enough, s, reads, done, within, kept⟩

end Whole

section Disclosure
variable {f : FloatFormat} {m m₁ m₂ : Memory}

def SameText (m₁ m₂ : Memory) : Insertion → Prop
  | .cString str => ∃ text, Shows m₁ str text ∧ Shows m₂ str text
  | .unsignedCString str => ∃ text, Shows m₁ str text ∧ Shows m₂ str text
  | .string data size => read m₁ data size = read m₂ data size
  | .dataTemplate data_ len_ => 0 ≤ len_ → read m₁ data_ len_.toNat = read m₂ data_ len_.toNat
  | .append data len => 0 ≤ len → read m₁ data len.toNat = read m₂ data len.toNat
  | _ => True

def InRange : Insertion → Prop
  | .integer t v => t.Holds v
  | .dataTemplate _ len_ => IntegerType.int.Holds len_
  | .append _ len => IntegerType.int.Holds len
  | _ => True

/-- Runs in two memories, and on two arrays, differ by nothing but the texts; of a pointer the
address alone counts. -/
structure RevealsOnly (f : FloatFormat) (values : List Insertion) : Prop where
  twoRuns : ∀ m₁ m₂ data₁ data₂ sized₁ sized₂, (∀ i ∈ values, SameText m₁ m₂ i) →
    ∃ enough, ∀ fuel ≥ enough, ∃ s₁ reads₁ s₂ reads₂,
      (fresh data₁ sized₁).insertValues fuel f m₁ values = some (s₁, reads₁) ∧
      (fresh data₂ sized₂).insertValues fuel f m₂ values = some (s₂, reads₂) ∧
      s₁.buffer_.content = s₂.buffer_.content
  pointers : ∀ data, .pointer data ∈ values → ∃ text, ∀ fuel m (s : LogStream), ∃ s' : LogStream,
    s.insertValue fuel f m (.pointer data) = some (s', []) ∧
    (s'.buffer_.content = s.buffer_.content ∨ s'.buffer_.content = s.buffer_.content ++ text)

theorem widen_toNat {len : ℤ} (range : IntegerType.int.Holds len) (positive : 0 ≤ len) :
    widen len = len.toNat := by
  have high : len < 2 ^ 31 := range.2
  unfold widen
  omega

/-- A negative length asks for more than any buffer has. -/
theorem widen_negative {len : ℤ} (range : IntegerType.int.Holds len) (negative : ¬0 ≤ len) :
    kSmallBuffer < widen len := by
  have low : -2 ^ 31 ≤ len := range.1
  unfold widen kSmallBuffer
  omega

theorem offer_long {text : List Byte} (long : kSmallBuffer < text.length) (content : List Byte) :
    offer kSmallBuffer content (plain text) = content :=
  offer_dropped (by change ¬content.length + (text.length + 1) ≤ kSmallBuffer; omega)

theorem offer_read {data : ℕ} {len : ℤ} (range : IntegerType.int.Holds len)
    (same : 0 ≤ len → read m₁ data len.toNat = read m₂ data len.toNat) (content : List Byte) :
    offer kSmallBuffer content (plain (read m₁ data (widen len))) =
      offer kSmallBuffer content (plain (read m₂ data (widen len))) := by
  by_cases positive : 0 ≤ len
  · rw [widen_toNat range positive, same positive]
  · have long := widen_negative range positive
    rw [offer_long (by rwa [read_length]), offer_long (by rwa [read_length])]

/-- The offers of an insertion in the two memories come to the same. -/
theorem offer_same (short : ∀ v, (f.text v).length < kMaxNumericSize) {i : Insertion}
    (range : InRange i) (same : SameText m₁ m₂ i) (null_ : ∀ data, i = .pointer data → data = 0) :
    ∃ p₁ p₂, Renders f m₁ i p₁ ∧ Renders f m₂ i p₂ ∧
      ∀ content, offer kSmallBuffer content p₁ = offer kSmallBuffer content p₂ := by
  cases i with
  | integer t v =>
    have fits := (ofInt_short range).le
    exact ⟨_, _, .integer range fits, .integer range fits, fun _ => rfl⟩
  | float v => exact ⟨_, _, .float (short _), .float (short _), fun _ => rfl⟩
  | double v => exact ⟨_, _, .double (short v), .double (short v), fun _ => rfl⟩
  | char c => exact ⟨_, _, .char, .char, fun _ => rfl⟩
  | pointer data =>
    have shows : ∀ m, Shows m data null := fun m => by rw [Shows, if_pos (null_ data rfl)]
    exact ⟨_, _, .pointer (shows m₁), .pointer (shows m₂), fun _ => rfl⟩
  | cString str =>
    obtain ⟨text, first, second⟩ := same
    exact ⟨_, _, .cString first, .cString second, fun _ => rfl⟩
  | unsignedCString str =>
    obtain ⟨text, first, second⟩ := same
    exact ⟨_, _, .unsignedCString first, .unsignedCString second, fun _ => rfl⟩
  | string data size =>
    have text : read m₁ data size = read m₂ data size := same
    refine ⟨_, _, .string, .string, fun content => ?_⟩
    rw [text]
  | buffer buf => exact ⟨_, _, .buffer, .buffer, fun _ => rfl⟩
  | dataTemplate data_ len_ =>
    exact ⟨_, _, .dataTemplate, .dataTemplate, fun content => offer_read range same content⟩
  | append data len => exact ⟨_, _, .append, .append, fun content => offer_read range same content⟩

theorem offerAll_same (short : ∀ v, (f.text v).length < kMaxNumericSize) {values : List Insertion}
    (range : ∀ i ∈ values, InRange i) (same : ∀ i ∈ values, SameText m₁ m₂ i)
    (null_ : ∀ data, .pointer data ∈ values → data = 0) :
    ∃ pieces₁ pieces₂, List.Forall₂ (Renders f m₁) values pieces₁ ∧
      List.Forall₂ (Renders f m₂) values pieces₂ ∧
      ∀ content, offerAll kSmallBuffer content pieces₁ = offerAll kSmallBuffer content pieces₂ := by
  induction values with
  | nil => exact ⟨[], [], .nil, .nil, fun _ => rfl⟩
  | cons i values ih =>
    obtain ⟨p₁, p₂, first₁, first₂, offered⟩ := offer_same short (range i List.mem_cons_self)
      (same i List.mem_cons_self) fun data here => null_ data (here ▸ List.mem_cons_self)
    obtain ⟨rest₁, rest₂, renders₁, renders₂, all⟩ :=
      ih (fun j mem => range j (List.mem_cons_of_mem i mem))
        (fun j mem => same j (List.mem_cons_of_mem i mem))
        fun data mem => null_ data (List.mem_cons_of_mem i mem)
    refine ⟨p₁ :: rest₁, p₂ :: rest₂, .cons first₁ renders₁, .cons first₂ renders₂, ?_⟩
    intro content
    rw [offerAll_cons, offerAll_cons, offered, all]

theorem insertValue_nullPointer (fuel : ℕ) (m : Memory) (s : LogStream) :
    ∃ s' : LogStream, s.insertValue fuel f m (.pointer 0) = some (s', []) ∧
      (s'.buffer_.content = s.buffer_.content ∨
        s'.buffer_.content = s.buffer_.content ++ null) := by
  refine ⟨⟨s.buffer_.append null⟩, rfl, ?_⟩
  rw [append_offer]
  exact offer_cases _

theorem insertValue_reads {fuel data : ℕ} {s s' : LogStream} {reads : List ℕ}
    (address : data ≠ 0) (done : s.insertValue fuel f m (.pointer data) = some (s', reads)) :
    data ∈ reads := by
  rw [insertValue, insertCString, if_pos address] at done
  obtain ⟨len, -, copy⟩ := Option.bind_eq_some_iff.mp done
  obtain ⟨⟨_, copied⟩, -, ends⟩ := Option.map_eq_some_iff.mp copy
  obtain ⟨-, rfl⟩ := Prod.mk.inj ends
  exact List.mem_append_left _ List.mem_cons_self

/-- A sequence of insertions reveals only what was inserted exactly when each of its generic
pointers is null. -/
theorem reveals_only_iff (f : FloatFormat) (values : List Insertion)
    (short : ∀ v, (f.text v).length < kMaxNumericSize) (range : ∀ i ∈ values, InRange i) :
    RevealsOnly f values ↔ ∀ data, .pointer data ∈ values → data = 0 := by
  refine ⟨fun only data mem => ?_, fun null_ => ⟨?_, fun data mem => ?_⟩⟩
  · by_contra address
    obtain ⟨text, shown⟩ := only.pointers data mem
    obtain ⟨s', done, -⟩ := shown 1 (fun _ => 0) empty
    exact List.not_mem_nil (insertValue_reads address done)
  · intro m₁ m₂ data₁ data₂ sized₁ sized₂ same
    obtain ⟨pieces₁, pieces₂, renders₁, renders₂, all⟩ := offerAll_same short range same null_
    refine ⟨21 + (pieces₁.flatMap Piece.text).length + (pieces₂.flatMap Piece.text).length,
      fun fuel turns => ?_⟩
    have turns₁ : 20 + (pieces₁.flatMap Piece.text).length < fuel := by omega
    have turns₂ : 20 + (pieces₂.flatMap Piece.text).length < fuel := by omega
    obtain ⟨s₁, reads₁, done₁, content₁⟩ :=
      insertValues_spec (s := fresh data₁ sized₁) renders₁ turns₁
    obtain ⟨s₂, reads₂, done₂, content₂⟩ :=
      insertValues_spec (s := fresh data₂ sized₂) renders₂ turns₂
    refine ⟨s₁, reads₁, s₂, reads₂, done₁, done₂, ?_⟩
    rw [content₁, content₂, all]
    rfl
  · rw [null_ data mem]
    exact ⟨null, insertValue_nullPointer⟩

theorem reveals_only_null :
    RevealsOnly zeroFormat [.integer .int 7, .cString 1000, .pointer 0] := by
  have range : ∀ i ∈ [Insertion.integer .int 7, .cString 1000, .pointer 0], InRange i := by
    simp only [List.forall_mem_cons, InRange, List.not_mem_nil, IsEmpty.forall_iff, implies_true,
      and_true]
    decide
  refine (reveals_only_iff zeroFormat _ (fun _ => (by decide : 1 < 48)) range).mpr ?_
  intro data mem
  simpa using mem

/-- The address of an event loop is inserted, once with zeros behind it and once with the
letter `A`, as its own bytes would be. -/
theorem reveals_memory :
    (∀ i ∈ [Insertion.pointer 4096], SameText (fun _ => 0) (letterAt 4096) i) ∧
    (∀ fuel ≥ 30, ∃ s₁ reads₁ s₂ reads₂,
      empty.insertValues fuel zeroFormat (fun _ => 0) [.pointer 4096] = some (s₁, reads₁) ∧
      empty.insertValues fuel zeroFormat (letterAt 4096) [.pointer 4096] = some (s₂, reads₂) ∧
      s₁.buffer_.content = [] ∧ s₂.buffer_.content = [65]) ∧
    ¬RevealsOnly zeroFormat [.pointer 4096] := by
  refine ⟨?_, ?_, ?_⟩
  · simp only [List.forall_mem_cons, SameText, List.not_mem_nil, IsEmpty.forall_iff, implies_true,
      and_true]
  · intro fuel turns
    have nothing : Renders zeroFormat (fun _ => 0) (.pointer 4096) (plain []) :=
      .pointer (by decide)
    have letter : Renders zeroFormat (letterAt 4096) (.pointer 4096) (plain [65]) :=
      .pointer (by decide)
    obtain ⟨s₁, reads₁, done₁, content₁⟩ := insertValues_spec (s := empty) (.cons nothing .nil)
      (Nat.lt_of_lt_of_le (by decide) turns)
    obtain ⟨s₂, reads₂, done₂, content₂⟩ := insertValues_spec (s := empty) (.cons letter .nil)
      (Nat.lt_of_lt_of_le (by decide) turns)
    exact ⟨s₁, reads₁, s₂, reads₂, done₁, done₂, content₁, content₂⟩
  · intro only
    obtain ⟨text, shown⟩ := only.pointers 4096 List.mem_cons_self
    obtain ⟨s', done, -⟩ := shown 1 (fun _ => 0) empty
    exact List.not_mem_nil (insertValue_reads (by decide) done)

end Disclosure

end LogStream
end TinyNetwork
