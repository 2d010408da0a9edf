import TinyNetwork.MachineWord
import TinyNetwork.MemoryRegion
import TinyNetwork.Transition

/-! The fixed-size byte buffer of `logger/FixedBuffer.h`: an array and a cursor into
it. Its content is the array up to the cursor; `data()` with `length()`, and
`toString()`, are what its users pass on. The cursor of a buffer never leaves the
array: an `add` that would push it out is `none`. -/
namespace TinyNetwork
open Transition MachineWord MemoryRegion

structure FixedBuffer (SIZE : ℕ) where
  data_ : List Byte
  cur_ : ℕ
  sized : data_.length = SIZE
  within : cur_ ≤ SIZE

def kSmallBuffer : ℕ := 4000
def kLargeBuffer : ℕ := 4000 * 1000

namespace FixedBuffer

variable {SIZE : ℕ}

def construct (data : List Byte) (h : data.length = SIZE) : FixedBuffer SIZE :=
  ⟨data, 0, h, Nat.zero_le _⟩

def length (_ : FixedBuffer SIZE) : ℕ := SIZE

def avail (b : FixedBuffer SIZE) : ℕ := SIZE - b.cur_

def add (b : FixedBuffer SIZE) (len : ℕ) : Option (FixedBuffer SIZE) :=
  if h : b.cur_ + len ≤ SIZE then some { b with cur_ := b.cur_ + len, within := h } else none

def poke (b : FixedBuffer SIZE) (bytes : List Byte) : FixedBuffer SIZE :=
  { b with
    data_ := overwrite b.data_ b.cur_ bytes
    sized := (overwrite_length _ _ _).trans b.sized }

def write (b : FixedBuffer SIZE) (bytes : List Byte) : Option (FixedBuffer SIZE) :=
  if b.cur_ + bytes.length ≤ SIZE then some (b.poke bytes) else none

def put (b : FixedBuffer SIZE) (i : ℕ) (c : Byte) : Option (FixedBuffer SIZE) :=
  if i < SIZE then
    some { b with data_ := b.data_.set i c, sized := List.length_set.trans b.sized }
  else none

def reverse (b : FixedBuffer SIZE) (first last : ℕ) : Option (FixedBuffer SIZE) :=
  if h : first ≤ last ∧ last ≤ SIZE then
    some { b with
      data_ := reverseRange b.data_ first last
      sized := (reverseRange_length h.1 (b.sized.symm ▸ h.2)).trans b.sized }
  else none

def reset (b : FixedBuffer SIZE) : FixedBuffer SIZE :=
  { b with cur_ := 0, within := Nat.zero_le _ }

def bzero (b : FixedBuffer SIZE) : FixedBuffer SIZE :=
  { b with data_ := List.replicate SIZE 0, sized := List.length_replicate }

/-- What a user of `data()` and `length()` passes on: `g_output` in `Logger::~Logger`, and
`output.append` in `AsyncLogging::threadFunc`. -/
def handedOut (b : FixedBuffer SIZE) : List Byte := b.data_.take b.length

def toString (b : FixedBuffer SIZE) : List Byte := b.data_.take b.length

/-- A buffer with no more than `len` bytes left refuses, with a message on the terminal. -/
def append (b : FixedBuffer SIZE) (buf : List Byte) : FixedBuffer SIZE :=
  if h : buf.length < b.avail then
    { b.poke buf with
      cur_ := b.cur_ + buf.length
      within := by unfold avail at h; omega }
  else b

def insert (b : FixedBuffer SIZE) (buf : FixedBuffer SIZE) : FixedBuffer SIZE :=
  b.append buf.toString

def content (b : FixedBuffer SIZE) : List Byte := b.data_.take b.cur_

@[simp] theorem construct_content (data : List Byte) (h : data.length = SIZE) :
    (construct data h).content = [] := List.take_zero

@[simp] theorem reset_content (b : FixedBuffer SIZE) : b.reset.content = [] := List.take_zero

theorem content_length (b : FixedBuffer SIZE) : b.content.length = b.cur_ := by
  rw [content, List.length_take, b.sized, Nat.min_eq_left b.within]

theorem append_refused {b : FixedBuffer SIZE} {buf : List Byte} (h : ¬buf.length < b.avail) :
    b.append buf = b := dif_neg h

theorem poke_content {b : FixedBuffer SIZE} {bytes : List Byte}
    (h : b.cur_ + bytes.length ≤ SIZE) :
    (b.poke bytes).data_.take (b.cur_ + bytes.length) = b.content ++ bytes :=
  take_overwrite (b.sized.symm ▸ h)

theorem append_content {b : FixedBuffer SIZE} {buf : List Byte} (h : buf.length < b.avail) :
    (b.append buf).content = b.content ++ buf := by
  have room : b.cur_ + buf.length ≤ SIZE := by
    unfold avail at h
    omega
  rw [append, dif_pos h]
  exact poke_content room

theorem add_content {b b' : FixedBuffer SIZE} {bytes : List Byte}
    (h : (b.poke bytes).add bytes.length = some b') : b'.content = b.content ++ bytes := by
  unfold add at h
  split_ifs at h with room
  rw [← Option.some.inj h]
  exact poke_content (b := b) room

theorem written_content {b b' : FixedBuffer SIZE} {text rest : List Byte}
    (data : b'.data_ = overwrite b.data_ b.cur_ (text ++ rest))
    (cursor : b'.cur_ = b.cur_ + text.length)
    (room : b.cur_ + (text ++ rest).length ≤ SIZE) : b'.content = b.content ++ text := by
  have start : (b.content ++ text).length = b.cur_ + text.length := by
    rw [List.length_append, content_length]
  have reach : b.cur_ + text.length ≤ b.cur_ + (text ++ rest).length := by
    rw [List.length_append]
    omega
  rw [content, cursor, data, ← Nat.min_eq_left reach, ← List.take_take,
    take_overwrite (b.sized.symm ▸ room), ← List.append_assoc, ← start]
  exact List.take_left

theorem handedOut_eq (b : FixedBuffer SIZE) : b.handedOut = b.data_ :=
  List.take_of_length_le b.sized.le

theorem toString_eq (b : FixedBuffer SIZE) : b.toString = b.data_ :=
  List.take_of_length_le b.sized.le

theorem insert_refused (b buf : FixedBuffer SIZE) : b.insert buf = b := by
  apply append_refused
  rw [toString_eq, buf.sized, avail]
  omega

section History

inductive Op where
  | append (buf : List Byte)
  | add (written : List Byte)
  | reset

structure State (SIZE : ℕ) where
  buffer : FixedBuffer SIZE
  accepted : List Byte

def next (s : State SIZE) : Op → Option (State SIZE)
  | .append buf => some {
      buffer := s.buffer.append buf
      accepted := if buf.length < s.buffer.avail then s.accepted ++ buf else s.accepted }
  | .add written => ((s.buffer.poke written).add written.length).map fun b =>
      ⟨b, s.accepted ++ written⟩
  | .reset => some ⟨s.buffer.reset, []⟩

def history (SIZE : ℕ) : System (State SIZE) Op where
  init s := s.buffer.cur_ = 0 ∧ s.accepted = []
  next := next

theorem next_content {s t : State SIZE} {op : Op} (h : s.buffer.content = s.accepted)
    (hn : next s op = some t) : t.buffer.content = t.accepted := by
  cases op with
  | append buf =>
    cases hn
    by_cases fits : buf.length < s.buffer.avail
    · simp only [if_pos fits, append_content fits, h]
    · simp only [if_neg fits, append_refused fits, h]
  | add written =>
    obtain ⟨b, hb, rfl⟩ := Option.map_eq_some_iff.mp hn
    rw [add_content hb, h]
  | reset =>
    cases hn
    exact reset_content _

/-- The content is what was accepted since the last `reset`, over every history. -/
theorem history_content {s : State SIZE} (h : (history SIZE).Reachable Any s) :
    s.buffer.content = s.accepted := by
  refine h.invariant (P := fun s => s.buffer.content = s.accepted) (fun s hi => ?_)
    fun _ _ _ hs _ hn => next_content hs hn
  rw [hi.2, content, hi.1, List.take_zero]

/-- What is handed out, and `toString()`, is what was accepted exactly when that fills the
whole array; and inserting the buffer into a stream appends it exactly when there is
nothing to append. -/
theorem handed_out_exact {s : State SIZE} (h : (history SIZE).Reachable Any s) :
    (s.buffer.handedOut = s.accepted ∧ s.buffer.toString = s.accepted ↔
      s.accepted.length = SIZE) ∧
    ∀ b : FixedBuffer SIZE,
      (b.insert s.buffer).content = b.content ++ s.accepted ↔ s.accepted = [] := by
  have content := history_content h
  refine ⟨⟨fun exact => ?_, fun full => ?_⟩, fun b => ?_⟩
  · rw [← exact.1, handedOut_eq, s.buffer.sized]
  · have whole : s.buffer.data_ = s.accepted := by
      have cursor := content_length s.buffer
      rw [content, full] at cursor
      rw [← content, FixedBuffer.content, ← cursor]
      exact (List.take_of_length_le s.buffer.sized.le).symm
    exact ⟨(handedOut_eq _).trans whole, (toString_eq _).trans whole⟩
  · rw [insert_refused]
    exact List.self_eq_append_right

theorem empty_initial (data : List Byte) (h : data.length = SIZE) :
    (history SIZE).init ⟨construct data h, []⟩ := ⟨rfl, rfl⟩

theorem handed_out_exact_full :
    ∃ s, (history 3).Reachable Any s ∧ s.accepted = [1, 2, 3] ∧
      (s.buffer.handedOut = s.accepted ∧ s.buffer.toString = s.accepted ↔
        s.accepted.length = 3) ∧
      ∀ b : FixedBuffer 3,
        (b.insert s.buffer).content = b.content ++ s.accepted ↔ s.accepted = [] := by
  have run : ((history 3).execute Any ⟨construct [0, 0, 0] rfl, []⟩
      [.append [9], .reset, .append [1, 2], .add [3]]).map State.accepted =
      some [1, 2, 3] := by decide +kernel
  obtain ⟨s, reached, accepted⟩ :=
    System.Reachable.of_replay (empty_initial [0, 0, 0] rfl) run
  exact ⟨s, reached, accepted, handed_out_exact reached⟩

/-- A reused buffer hands out the byte put in, a stale one and the rest of the array. -/
theorem handed_out_stale :
    ∃ s, (history 4).Reachable Any s ∧ s.accepted = [3] ∧
      s.buffer.handedOut = [3, 2, 0, 0] ∧ s.buffer.toString = [3, 2, 0, 0] := by
  have run : ((history 4).execute Any ⟨construct [0, 0, 0, 0] rfl, []⟩
      [.append [1, 2], .reset, .append [3]]).map
      (fun s => (s.accepted, s.buffer.handedOut, s.buffer.toString)) =
      some ([3], [3, 2, 0, 0], [3, 2, 0, 0]) := by decide +kernel
  obtain ⟨s, reached, ends⟩ :=
    System.Reachable.of_replay (empty_initial [0, 0, 0, 0] rfl) run
  simp only [Prod.mk.injEq] at ends
  exact ⟨s, reached, ends⟩

end History

end FixedBuffer

end TinyNetwork
