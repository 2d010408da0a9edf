import TinyNetwork.MachineWord
import TinyNetwork.MemoryRegion

/-! The network byte buffer of `net/Buffer.h` and `net/Buffer.cc`: a vector with a
reader and a writer index. Index arithmetic is `size_t` arithmetic, `makeSpace`
takes its length through an `int`, and a refused growth of the vector throws,
which is `none` here. Below the model, the contract of each operation in terms
of the readable bytes alone. -/
namespace TinyNetwork
open MachineWord MemoryRegion

structure Buffer where
  buffer_ : List Byte
  readerIndex_ : ℕ
  writerIndex_ : ℕ

namespace Buffer

def kCheapPrepend : ℕ := 8

def kInitialSize : ℕ := 1024

def maxSize : ℕ := 2 ^ 63 - 1

/-- `buffer_.resize(n)`: zero-filled growth or truncation, `std::length_error` as `none`. -/
def resize (mem : List Byte) (n : ℕ) : Option (List Byte) :=
  if n ≤ maxSize then some (mem.take n ++ List.replicate (n - mem.length) 0) else none

def construct (initialSize : ℕ) : Option Buffer :=
  (resize [] (sizeAdd kCheapPrepend initialSize)).map fun mem =>
    ⟨mem, kCheapPrepend, kCheapPrepend⟩

def fresh : Buffer :=
  ⟨List.replicate (kCheapPrepend + kInitialSize) 0, kCheapPrepend, kCheapPrepend⟩

def readableBytes (b : Buffer) : ℕ := sizeSub b.writerIndex_ b.readerIndex_

def writableBytes (b : Buffer) : ℕ := sizeSub b.buffer_.length b.writerIndex_

def prependableBytes (b : Buffer) : ℕ := b.readerIndex_

/-- The copy of the second branch slides the readable range down; `std::copy` on
`char` moves the range as a whole. -/
def makeSpace (b : Buffer) (len : ℤ) : Option Buffer :=
  if sizeAdd b.writableBytes b.prependableBytes < sizeAdd (widen len) kCheapPrepend then
    (resize b.buffer_ (sizeAdd b.writerIndex_ (widen len))).map fun mem =>
      { b with buffer_ := mem }
  else
    let readable := b.readableBytes
    some {
      buffer_ := overwrite b.buffer_ kCheapPrepend
        (slice b.buffer_ b.readerIndex_ b.writerIndex_)
      readerIndex_ := kCheapPrepend
      writerIndex_ := sizeAdd kCheapPrepend readable }

def ensureWritableBytes (b : Buffer) (len : ℕ) : Option Buffer :=
  if b.writableBytes < len then b.makeSpace (narrow len) else some b

def append (b : Buffer) (data : List Byte) : Option Buffer :=
  (b.ensureWritableBytes data.length).map fun b =>
    { b with
      buffer_ := overwrite b.buffer_ b.writerIndex_ data
      writerIndex_ := sizeAdd b.writerIndex_ data.length }

def retrieveAll (b : Buffer) : Buffer :=
  { b with readerIndex_ := kCheapPrepend, writerIndex_ := kCheapPrepend }

def retrieve (b : Buffer) (len : ℕ) : Buffer :=
  if len < b.readableBytes then { b with readerIndex_ := sizeAdd b.readerIndex_ len }
  else b.retrieveAll

/-- `end - peek()` is a pointer difference converted to `size_t`; `stop` is the position of
`end` in the vector. -/
def retrieveUntil (b : Buffer) (stop : ℕ) : Buffer :=
  b.retrieve (sizeSub stop b.readerIndex_)

/-- `std::string(peek(), len)` reads `len` bytes whatever is readable; a byte past
the vector is `none`. -/
def retrieveAsString (b : Buffer) (len : ℕ) : List (Option Byte) × Buffer :=
  (peek b.buffer_ b.readerIndex_ len, b.retrieve len)

def retrieveAllAsString (b : Buffer) : List (Option Byte) × Buffer :=
  b.retrieveAsString b.readableBytes

/-- What `::readv` returns: the received bytes, or an `errno`. -/
inductive ReadResult where
  | received (bytes : List Byte)
  | failed (errno : ℤ)

def extraSize : ℕ := 65536

def readOffer (b : Buffer) : ℕ :=
  if b.writableBytes < extraSize then b.writableBytes + extraSize else b.writableBytes

/-- The buffer, the returned `n` and `*saveErrno` after the call. `::readv` fills the
writable region before the stack area. -/
def readFd (b : Buffer) (saveErrno : ℤ) : ReadResult → Option (Buffer × ℤ × ℤ)
  | .failed errno => some (b, -1, errno)
  | .received bytes =>
    let writable := b.writableBytes
    let mem := overwrite b.buffer_ b.writerIndex_ (bytes.take writable)
    if bytes.length ≤ writable then
      some ({ b with buffer_ := mem, writerIndex_ := sizeAdd b.writerIndex_ bytes.length },
        bytes.length, saveErrno)
    else
      ({ b with buffer_ := mem, writerIndex_ := b.buffer_.length }.append
        (bytes.drop writable)).map fun b => (b, (bytes.length : ℤ), saveErrno)

structure WellFormed (b : Buffer) : Prop where
  prepend_le : kCheapPrepend ≤ b.readerIndex_
  reader_le : b.readerIndex_ ≤ b.writerIndex_
  writer_le : b.writerIndex_ ≤ b.buffer_.length
  size_le : b.buffer_.length ≤ maxSize

abbrev Grows (b : Buffer) (len : ℤ) : Prop :=
  sizeAdd b.writableBytes b.prependableBytes < sizeAdd (widen len) kCheapPrepend

/-- Making room for `len` bytes survives the `int` parameter of `makeSpace`. -/
def Fits (b : Buffer) (len : ℕ) : Prop := b.writableBytes < len → len < 2 ^ 31

instance (b : Buffer) (len : ℕ) : Decidable (b.Fits len) := by
  unfold Fits
  infer_instance

def readable (b : Buffer) : List Byte := slice b.buffer_ b.readerIndex_ b.writerIndex_

theorem resize_length {mem grown : List Byte} {n : ℕ} (h : resize mem n = some grown) :
    grown.length = n ∧ n ≤ maxSize := by
  simp only [resize] at h
  split_ifs at h with fits
  rw [← Option.some.inj h]
  simp only [List.length_append, List.length_take, List.length_replicate]
  omega

theorem resize_grow {mem grown : List Byte} {n : ℕ} (hn : mem.length ≤ n)
    (h : resize mem n = some grown) : grown = mem ++ List.replicate (n - mem.length) 0 := by
  simp only [resize] at h
  split_ifs at h
  rw [← Option.some.inj h, List.take_of_length_le hn]

theorem fresh_wellFormed : WellFormed fresh := by
  have size : fresh.buffer_.length = kCheapPrepend + kInitialSize := List.length_replicate
  refine ⟨le_refl _, le_refl _, ?_, ?_⟩
  · rw [size]
    exact Nat.le_add_right _ _
  · rw [size]
    decide

@[simp] theorem fresh_readable : readable fresh = [] := slice_self _ _

theorem construct_initial : construct kInitialSize = some fresh := rfl

theorem construct_wellFormed {initialSize : ℕ} (small : kCheapPrepend + initialSize < 2 ^ 64)
    {b : Buffer} (hb : construct initialSize = some b) : WellFormed b ∧ readable b = [] := by
  obtain ⟨mem, hmem, rfl⟩ := Option.map_eq_some_iff.mp hb
  rw [sizeAdd_of_lt small] at hmem
  obtain ⟨size, bound⟩ := resize_length hmem
  refine ⟨⟨le_refl _, le_refl _, ?_, ?_⟩, slice_self _ _⟩
  · simp only [size]
    exact Nat.le_add_right _ _
  · simp only [size]
    exact bound

section Indices
variable {b : Buffer} (h : WellFormed b)
include h

theorem readableBytes_eq : b.readableBytes = b.writerIndex_ - b.readerIndex_ := by
  have := h.writer_le
  have := h.size_le
  exact sizeSub_of_le h.reader_le (by unfold maxSize at *; omega)

theorem writableBytes_eq : b.writableBytes = b.buffer_.length - b.writerIndex_ := by
  have := h.size_le
  exact sizeSub_of_le h.writer_le (by unfold maxSize at *; omega)

theorem readable_length : (readable b).length = b.readableBytes := by
  rw [readableBytes_eq h]
  exact slice_length h.writer_le

theorem readableBytes_eq_zero : b.readableBytes = 0 ↔ readable b = [] := by
  rw [← readable_length h, List.length_eq_zero_iff]

theorem retrieveAll_wellFormed : WellFormed b.retrieveAll where
  prepend_le := le_refl _
  reader_le := le_refl _
  writer_le := by
    have := h.prepend_le
    have := h.reader_le
    have := h.writer_le
    simp only [retrieveAll]
    omega
  size_le := h.size_le

omit h in
@[simp] theorem retrieveAll_readable (b : Buffer) : readable b.retrieveAll = [] :=
  slice_self _ _

theorem retrieve_wellFormed (len : ℕ) : WellFormed (b.retrieve len) := by
  unfold retrieve
  split_ifs with partly
  · rw [readableBytes_eq h] at partly
    have hw := h.writer_le
    have hs := h.size_le
    have hp := h.prepend_le
    have sum : sizeAdd b.readerIndex_ len = b.readerIndex_ + len :=
      sizeAdd_of_lt (by unfold maxSize at hs; omega)
    refine ⟨?_, ?_, hw, hs⟩
    · simp only [sum]
      omega
    · simp only [sum]
      omega
  · exact retrieveAll_wellFormed h

theorem retrieve_readable (len : ℕ) : readable (b.retrieve len) = (readable b).drop len := by
  unfold retrieve
  split_ifs with partly
  · rw [readableBytes_eq h] at partly
    have hw := h.writer_le
    have hs := h.size_le
    have sum : sizeAdd b.readerIndex_ len = b.readerIndex_ + len :=
      sizeAdd_of_lt (by unfold maxSize at hs; omega)
    simp only [readable, sum]
    exact (drop_slice _ _ _ _).symm
  · rw [retrieveAll_readable, List.drop_eq_nil_of_le]
    rw [readable_length h]
    omega

theorem free_eq : sizeAdd b.writableBytes b.prependableBytes =
    b.buffer_.length - b.writerIndex_ + b.readerIndex_ := by
  have hr := h.reader_le
  have hw := h.writer_le
  have hs := h.size_le
  unfold maxSize at hs
  rw [writableBytes_eq h]
  exact sizeAdd_of_lt (by simp only [prependableBytes]; omega)

theorem makeSpace_slide {len : ℤ} (enough : ¬b.Grows len) {b' : Buffer}
    (hb : b.makeSpace len = some b') : WellFormed b' ∧ readable b' = readable b ∧
      b'.writerIndex_ + b.buffer_.length + b.readerIndex_ =
        kCheapPrepend + b.writerIndex_ + b'.buffer_.length := by
  have hp := h.prepend_le
  have hr := h.reader_le
  have hw := h.writer_le
  have hs := h.size_le
  unfold maxSize at hs
  have content : (slice b.buffer_ b.readerIndex_ b.writerIndex_).length =
      b.writerIndex_ - b.readerIndex_ := slice_length hw
  have stop : sizeAdd kCheapPrepend b.readableBytes =
      kCheapPrepend + (b.writerIndex_ - b.readerIndex_) := by
    rw [readableBytes_eq h]
    exact sizeAdd_of_lt (by omega)
  rw [makeSpace, if_neg enough] at hb
  rw [← Option.some.inj hb]
  refine ⟨⟨le_refl _, ?_, ?_, ?_⟩, ?_, ?_⟩
  · simp only [stop]
    omega
  · simp only [stop, overwrite_length]
    omega
  · simp only [overwrite_length]
    exact h.size_le
  · simp only [readable, stop]
    rw [← content, slice_overwrite (le_refl _) (by rw [content]; omega), slice_self,
      List.nil_append]
  · simp only [stop, overwrite_length]
    omega

/-- `makeSpace` on a length that survives the `int` parameter: room for `len` more
bytes and the same content, whichever branch is taken. -/
theorem makeSpace_spec {len : ℕ} (hlen : len < 2 ^ 31) (full : b.writableBytes < len)
    {b' : Buffer} (hb : b.makeSpace (narrow len) = some b') :
    WellFormed b' ∧ readable b' = readable b ∧ b'.writerIndex_ + len ≤ b'.buffer_.length := by
  have hp := h.prepend_le
  have hr := h.reader_le
  have hw := h.writer_le
  have hs := h.size_le
  have room := free_eq h
  rw [writableBytes_eq h] at full
  unfold maxSize at hs
  have need : sizeAdd (widen (narrow len)) kCheapPrepend = len + kCheapPrepend := by
    rw [widen_narrow hlen]
    exact sizeAdd_of_lt (by unfold kCheapPrepend; omega)
  have last : sizeAdd b.writerIndex_ (widen (narrow len)) = b.writerIndex_ + len := by
    rw [widen_narrow hlen]
    exact sizeAdd_of_lt (by omega)
  by_cases grow : b.Grows (narrow len)
  · rw [makeSpace, if_pos grow, last] at hb
    obtain ⟨mem, hmem, rfl⟩ := Option.map_eq_some_iff.mp hb
    obtain ⟨size, bound⟩ := resize_length hmem
    have shape := resize_grow (by omega) hmem
    refine ⟨⟨hp, hr, ?_, ?_⟩, ?_, ?_⟩
    · simp only [size]
      omega
    · simp only [size]
      exact bound
    · simp only [readable, shape]
      exact slice_append hw
    · simp only [size]
      omega
  · obtain ⟨kept, content, freed⟩ := makeSpace_slide h grow hb
    refine ⟨kept, content, ?_⟩
    unfold Grows at grow
    rw [room, need] at grow
    omega

theorem ensureWritableBytes_spec {len : ℕ} (hlen : b.Fits len) {b' : Buffer}
    (hb : b.ensureWritableBytes len = some b') :
    WellFormed b' ∧ readable b' = readable b ∧ b'.writerIndex_ + len ≤ b'.buffer_.length := by
  unfold ensureWritableBytes at hb
  split_ifs at hb with full
  · exact makeSpace_spec h (hlen full) full hb
  · rw [writableBytes_eq h] at full
    have hw := h.writer_le
    rw [← Option.some.inj hb]
    exact ⟨h, rfl, by omega⟩

theorem copy_spec {data : List Byte} (room : b.writerIndex_ + data.length ≤ b.buffer_.length)
    {b' : Buffer} (hb : b' = { b with
      buffer_ := overwrite b.buffer_ b.writerIndex_ data
      writerIndex_ := sizeAdd b.writerIndex_ data.length }) :
    WellFormed b' ∧ readable b' = readable b ++ data := by
  have hs := h.size_le
  have hr := h.reader_le
  have stop : sizeAdd b.writerIndex_ data.length = b.writerIndex_ + data.length :=
    sizeAdd_of_lt (by unfold maxSize at hs; omega)
  rw [hb]
  refine ⟨⟨h.prepend_le, ?_, ?_, ?_⟩, ?_⟩
  · simp only [stop]
    omega
  · simp only [stop, overwrite_length]
    exact room
  · simp only [overwrite_length]
    exact hs
  · simp only [readable, stop]
    exact slice_overwrite hr room

/-- `append` queues its data behind the readable bytes. -/
theorem append_spec {data : List Byte} (hlen : b.Fits data.length) {b' : Buffer}
    (hb : b.append data = some b') : WellFormed b' ∧ readable b' = readable b ++ data := by
  obtain ⟨c, hc, same⟩ := Option.map_eq_some_iff.mp hb
  obtain ⟨hcw, content, room⟩ := ensureWritableBytes_spec h hlen hc
  rw [← content]
  exact copy_spec hcw room same.symm

theorem retrieveUntil_eq {n : ℕ} (hn : n ≤ b.readableBytes) :
    b.retrieveUntil (b.readerIndex_ + n) = b.retrieve n := by
  have hr := h.reader_le
  have hw := h.writer_le
  have hs := h.size_le
  rw [readableBytes_eq h] at hn
  unfold maxSize at hs
  rw [retrieveUntil, sizeSub_of_le (Nat.le_add_right _ _) (by omega), Nat.add_sub_cancel_left]

theorem retrieveAsString_fst {len : ℕ} (hlen : len ≤ b.readableBytes) :
    (b.retrieveAsString len).1 = ((readable b).take len).map some := by
  have hr := h.reader_le
  have hw := h.writer_le
  rw [readableBytes_eq h] at hlen
  rw [readable, take_slice (by omega)]
  exact peek_eq_slice (by omega)

theorem retrieveAllAsString_fst : b.retrieveAllAsString.1 = (readable b).map some := by
  rw [retrieveAllAsString, retrieveAsString_fst h (le_refl _), ← readable_length h,
    List.take_length]

end Indices

end Buffer

end TinyNetwork
