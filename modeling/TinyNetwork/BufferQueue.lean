import TinyNetwork.BufferRange
import TinyNetwork.Transition

/-! A buffer and the byte queue it stands for, driven by the same operations from the
construction on. Every operation keeps the index order and acts on the readable bytes
as the queue operation does, and every returned string is the front of the queue. The
constructor is the one place where `size_t` arithmetic can wrap: `kCheapPrepend +
initialSize` does for the eight largest sizes. -/
namespace TinyNetwork
open MachineWord MemoryRegion Transition

namespace Buffer

/-- A position handed to `retrieveUntil` is given by the readable bytes in front of it. -/
inductive Op where
  | append (data : List Byte)
  | ensureWritableBytes (len : ℕ)
  | retrieve (len : ℕ)
  | retrieveUntil (ahead : ℕ)
  | retrieveAll
  | retrieveAllAsString
  | retrieveAsString (len : ℕ)

def Allowed (b : Buffer) : Op → Prop
  | .append data => data.length < 2 ^ 31
  | .ensureWritableBytes len => len < 2 ^ 31
  | .retrieve len => len < 2 ^ 64
  | .retrieveUntil ahead => ahead ≤ b.readableBytes
  | .retrieveAll => True
  | .retrieveAllAsString => True
  | .retrieveAsString len => len ≤ b.readableBytes

instance (b : Buffer) (op : Op) : Decidable (b.Allowed op) := by
  cases op <;> unfold Allowed <;> infer_instance

/-- The buffer after a call, and the string it returned if it returns one. A growth of the
vector that throws leaves the buffer as it was and is no step. -/
def perform (b : Buffer) : Op → Option (Buffer × Option (List (Option Byte)))
  | .append data => (b.append data).map (·, none)
  | .ensureWritableBytes len => (b.ensureWritableBytes len).map (·, none)
  | .retrieve len => some (b.retrieve len, none)
  | .retrieveUntil ahead => some (b.retrieveUntil (b.readerIndex_ + ahead), none)
  | .retrieveAll => some (b.retrieveAll, none)
  | .retrieveAllAsString => some (b.retrieveAllAsString.2, some b.retrieveAllAsString.1)
  | .retrieveAsString len => some ((b.retrieveAsString len).2, some (b.retrieveAsString len).1)

def WithinLimit (b : Buffer) : Op → Prop
  | .append data => b.writerIndex_ + data.length ≤ maxSize
  | .ensureWritableBytes len => b.writerIndex_ + len ≤ maxSize
  | _ => True

end Buffer

abbrev ByteQueue := List Byte

namespace ByteQueue
open Buffer (Op)

def perform (q : ByteQueue) : Op → ByteQueue
  | .append data => q ++ data
  | .ensureWritableBytes _ => q
  | .retrieve len => q.drop len
  | .retrieveUntil ahead => q.drop ahead
  | .retrieveAll => []
  | .retrieveAllAsString => []
  | .retrieveAsString len => q.drop len

def answer (q : ByteQueue) : Op → Option (List Byte)
  | .retrieveAllAsString => some q
  | .retrieveAsString len => some (q.take len)
  | _ => none

end ByteQueue

namespace Buffer

variable {b b' : Buffer}

theorem perform_spec (h : WellFormed b) {op : Op} (allowed : b.Allowed op)
    {out : Option (List (Option Byte))} (hb : b.perform op = some (b', out)) :
    WellFormed b' ∧ readable b' = ByteQueue.perform (readable b) op ∧
      out = (ByteQueue.answer (readable b) op).map (List.map some) := by
  cases op with
  | append data =>
    obtain ⟨c, hc, same⟩ := Option.map_eq_some_iff.mp hb
    cases same
    obtain ⟨kept, content⟩ := append_spec h (fun _ => allowed) hc
    exact ⟨kept, content, rfl⟩
  | ensureWritableBytes len =>
    obtain ⟨c, hc, same⟩ := Option.map_eq_some_iff.mp hb
    cases same
    obtain ⟨kept, content, -⟩ := ensureWritableBytes_spec h (fun _ => allowed) hc
    exact ⟨kept, content, rfl⟩
  | retrieve len =>
    cases hb
    exact ⟨retrieve_wellFormed h len, retrieve_readable h len, rfl⟩
  | retrieveUntil ahead =>
    cases hb
    rw [retrieveUntil_eq h allowed]
    exact ⟨retrieve_wellFormed h ahead, retrieve_readable h ahead, rfl⟩
  | retrieveAll =>
    cases hb
    exact ⟨retrieveAll_wellFormed h, retrieveAll_readable b, rfl⟩
  | retrieveAllAsString =>
    cases hb
    have emptied : readable b.retrieveAllAsString.2 = [] := by
      rw [retrieveAllAsString, retrieveAsString, retrieve_readable h, ← readable_length h]
      exact List.drop_length
    exact ⟨retrieve_wellFormed h _, emptied, congrArg some (retrieveAllAsString_fst h)⟩
  | retrieveAsString len =>
    cases hb
    exact ⟨retrieve_wellFormed h len, retrieve_readable h len,
      congrArg some (retrieveAsString_fst h allowed)⟩

theorem perform_returns (h : WellFormed b) {op : Op} (allowed : b.Allowed op)
    (within : b.WithinLimit op) : (b.perform op).isSome := by
  cases op with
  | append data =>
    obtain ⟨c, hc⟩ := append_returns h data (.inr (.inl allowed)) within
    rw [perform, hc]
    rfl
  | ensureWritableBytes len =>
    obtain ⟨c, hc⟩ := passes_returns h (.inr (.inl allowed)) within
    rw [perform, hc]
    rfl
  | _ => rfl

theorem ensureWritableBytes_room (h : WellFormed b) {len : ℕ} (hlen : b.Fits len)
    (hb : b.ensureWritableBytes len = some b') : len ≤ b'.writableBytes := by
  obtain ⟨kept, -, room⟩ := ensureWritableBytes_spec h hlen hb
  rw [writableBytes_eq kept]
  omega

end Buffer

structure BufferQueue where
  buffer : Buffer
  queue : ByteQueue

namespace BufferQueue
open Buffer

def next (s : BufferQueue) (op : Op) : Option BufferQueue :=
  if s.buffer.Allowed op then
    (s.buffer.perform op).map fun result => ⟨result.1, s.queue.perform op⟩
  else none

def bufferQueue (initialSize : ℕ) : System BufferQueue Op where
  init s := construct initialSize = some s.buffer ∧ s.queue = []
  next := next

/-- The indices are in order, the content is the queue, the next string is the front of
the queue, `ensureWritableBytes` makes the room it is asked for, and only a growth beyond the
limit of the vector keeps a call from returning. -/
structure IsFifo (s : BufferQueue) : Prop where
  prepend_le : kCheapPrepend ≤ s.buffer.readerIndex_
  reader_le : s.buffer.readerIndex_ ≤ s.buffer.writerIndex_
  writer_le : s.buffer.writerIndex_ ≤ s.buffer.buffer_.length
  content : readable s.buffer = s.queue
  returned : ∀ op b out, s.buffer.Allowed op → s.buffer.perform op = some (b, out) →
    out = (s.queue.answer op).map (List.map some)
  room : ∀ len b, len < 2 ^ 31 → s.buffer.ensureWritableBytes len = some b →
    len ≤ b.writableBytes
  returns : ∀ op, s.buffer.Allowed op → s.buffer.WithinLimit op → (s.buffer.perform op).isSome

structure Represents (s : BufferQueue) : Prop where
  wellFormed : WellFormed s.buffer
  content : readable s.buffer = s.queue

variable {s s' : BufferQueue} {initialSize : ℕ}

theorem next_represents (h : Represents s) {op : Op} (hn : next s op = some s') :
    Represents s' := by
  obtain ⟨allowed, taken⟩ := Option.ite_none_right_eq_some.mp hn
  obtain ⟨⟨b, out⟩, hb, rfl⟩ := Option.map_eq_some_iff.mp taken
  obtain ⟨kept, content, -⟩ := perform_spec h.wellFormed allowed hb
  refine ⟨kept, ?_⟩
  rw [content, h.content]

theorem reachable_represents (small : kCheapPrepend + initialSize < 2 ^ 64)
    (h : (bufferQueue initialSize).Reachable Any s) : Represents s := by
  refine h.invariant (P := Represents) (fun s₀ hi => ?_) fun _ _ _ hs _ hn => next_represents hs hn
  obtain ⟨kept, content⟩ := construct_wellFormed small hi.1
  exact ⟨kept, content.trans hi.2.symm⟩

theorem Represents.isFifo (h : Represents s) : IsFifo s where
  prepend_le := h.wellFormed.prepend_le
  reader_le := h.wellFormed.reader_le
  writer_le := h.wellFormed.writer_le
  content := h.content
  returned op b out allowed hb := by
    rw [← h.content]
    exact (perform_spec h.wellFormed allowed hb).2.2
  room len b hlen hb := ensureWritableBytes_room h.wellFormed (fun _ => hlen) hb
  returns _ allowed within := perform_returns h.wellFormed allowed within

theorem construct_wrapped (hsize : initialSize < 2 ^ 64)
    (wraps : ¬kCheapPrepend + initialSize < 2 ^ 64) :
    ∃ b, construct initialSize = some b ∧ b.buffer_.length < b.writerIndex_ := by
  have short : sizeAdd kCheapPrepend initialSize < kCheapPrepend := by
    unfold kCheapPrepend at wraps ⊢
    rw [sizeAdd, Nat.mod_eq_sub_mod (by omega), Nat.mod_eq_of_lt (by omega)]
    omega
  have fits : sizeAdd kCheapPrepend initialSize ≤ maxSize :=
    le_of_lt (lt_of_lt_of_le short (by decide))
  refine ⟨_, congrArg (Option.map _) (if_pos fits), ?_⟩
  simpa using short

/-- A buffer is a byte queue over all histories, whatever its initial size, unless
`kCheapPrepend + initialSize` wraps. -/
theorem buffer_is_fifo (hsize : initialSize < 2 ^ 64) :
    (∀ s, (bufferQueue initialSize).Reachable Any s → IsFifo s) ↔
      kCheapPrepend + initialSize < 2 ^ 64 := by
  constructor
  · intro fifo
    by_contra wraps
    obtain ⟨b, hb, short⟩ := construct_wrapped hsize wraps
    have ordered := (fifo ⟨b, []⟩ (.initial ⟨hb, rfl⟩)).writer_le
    exact absurd short (Nat.not_lt_of_le ordered)
  · intro small s reached
    exact (reachable_represents small reached).isFifo

/-- A buffer of four bytes grows for six, and gives two of them away. -/
theorem buffer_is_fifo_grown :
    ∃ s, (bufferQueue 4).Reachable Any s ∧ s.buffer.buffer_.length = 14 ∧
      s.queue = [3, 4, 5, 6] ∧ IsFifo s ∧
      ((∀ s, (bufferQueue 4).Reachable Any s → IsFifo s) ↔ kCheapPrepend + 4 < 2 ^ 64) := by
  have run : ((bufferQueue 4).execute Any ⟨⟨List.replicate 12 0, 8, 8⟩, []⟩
      [.append [1, 2, 3, 4, 5, 6], .retrieveAsString 2]).map
      (fun s => (s.buffer.buffer_.length, s.queue)) = some (14, [3, 4, 5, 6]) := by
    decide +kernel
  have built : (bufferQueue 4).init ⟨⟨List.replicate 12 0, 8, 8⟩, []⟩ := ⟨rfl, rfl⟩
  obtain ⟨s, reached, ends⟩ := System.Reachable.of_replay built run
  simp only [Prod.mk.injEq] at ends
  have exact_ := buffer_is_fifo (by decide : 4 < 2 ^ 64)
  exact ⟨s, reached, ends.1, ends.2, exact_.mpr (by decide) s reached, exact_⟩

/-- `Buffer(2^64 - 8)` is an empty vector with both indices at 8. -/
theorem wrapped_buffer_disordered :
    ¬∀ s, (bufferQueue (2 ^ 64 - 8)).Reachable Any s → IsFifo s := by
  intro fifo
  have built : construct (2 ^ 64 - 8) = some ⟨[], 8, 8⟩ := rfl
  have ordered := (fifo ⟨⟨[], 8, 8⟩, []⟩ (.initial ⟨built, rfl⟩)).writer_le
  exact absurd ordered (by decide)

end BufferQueue

end TinyNetwork
