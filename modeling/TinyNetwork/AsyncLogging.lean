import TinyNetwork.FixedBuffer
import TinyNetwork.FifoTransfer
import Mathlib.Data.List.Flatten
import Mathlib.Data.List.Infix

/-! The double-buffered log of `logger/AsyncLogging.cc`: any number of threads in
`append`, whose body runs under the mutex, one back-end thread in `threadFunc`, and
`start` and `stop`. Buffers are owned by one pointer at a time and move between
the front end (`currentBuffer_`, `nextBuffer_`, `buffers_`) and the back end
(`newBuffer1`, `newBuffer2`, `buffersToWrite`); a null pointer is `none`, and a
step that would dereference one, or take the back of an empty vector, does not
exist. `wait_for` may return at any time. -/
namespace TinyNetwork
open Transition MachineWord FifoTransfer

/-- The back-end thread: at the loop test, before the lock, in `wait_for`, or past the
swap with the first `k` buffers of `buffersToWrite` written. -/
inductive BackEnd where
  | notStarted
  | head
  | lock
  | waiting
  | writing (k : ℕ)
  | exited
  deriving DecidableEq

/-- `lines` are the lines appended, in the order their calls took the lock, and `written`
the contents of the buffers passed to `output.append`. -/
structure AsyncLogging (SIZE : ℕ) where
  running_ : Bool
  currentBuffer_ : Option (FixedBuffer SIZE)
  nextBuffer_ : Option (FixedBuffer SIZE)
  buffers_ : List (Option (FixedBuffer SIZE))
  newBuffer1 : Option (FixedBuffer SIZE)
  newBuffer2 : Option (FixedBuffer SIZE)
  buffersToWrite : List (Option (FixedBuffer SIZE))
  backEnd : BackEnd
  lines : List (List Byte)
  written : List (List Byte)

namespace AsyncLogging

variable {SIZE : ℕ}

/-- `new Buffer` on whatever bytes the memory holds. -/
abbrev Memory (SIZE : ℕ) := { data : List Byte // data.length = SIZE }

def allocate (memory : Memory SIZE) : FixedBuffer SIZE :=
  FixedBuffer.construct memory.1 memory.2

def construct (m₁ m₂ : Memory SIZE) : AsyncLogging SIZE where
  running_ := false
  currentBuffer_ := some (allocate m₁).bzero
  nextBuffer_ := some (allocate m₂).bzero
  buffers_ := []
  newBuffer1 := none
  newBuffer2 := none
  buffersToWrite := []
  backEnd := .notStarted
  lines := []
  written := []

def start (l : AsyncLogging SIZE) (m₁ m₂ : Memory SIZE) : AsyncLogging SIZE :=
  { l with
    running_ := true
    newBuffer1 := some (allocate m₁).bzero
    newBuffer2 := some (allocate m₂).bzero
    backEnd := .head }

def stop (l : AsyncLogging SIZE) : AsyncLogging SIZE := { l with running_ := false }

def append (l : AsyncLogging SIZE) (logline : List Byte) (memory : Memory SIZE) :
    Option (AsyncLogging SIZE) :=
  l.currentBuffer_.map fun current =>
    if logline.length < current.avail then
      { l with
        currentBuffer_ := some (current.append logline)
        lines := l.lines ++ [logline] }
    else
      { l with
        buffers_ := l.buffers_ ++ [some current]
        currentBuffer_ := some ((l.nextBuffer_.getD (allocate memory)).append logline)
        nextBuffer_ := none
        lines := l.lines ++ [logline] }

/-- The locked section of one turn of `threadFunc`, after the wait. -/
def swap (l : AsyncLogging SIZE) : AsyncLogging SIZE :=
  { l with
    currentBuffer_ := l.newBuffer1
    newBuffer1 := none
    buffers_ := l.buffersToWrite
    buffersToWrite := l.buffers_ ++ [l.currentBuffer_]
    nextBuffer_ := match l.nextBuffer_ with
      | some next => some next
      | none => l.newBuffer2
    newBuffer2 := match l.nextBuffer_ with
      | some _ => l.newBuffer2
      | none => none
    backEnd := .writing 0 }

def write (l : AsyncLogging SIZE) (k : ℕ) : Option (AsyncLogging SIZE) :=
  (l.buffersToWrite[k]?.bind id).map fun buffer =>
    { l with written := l.written ++ [buffer.content], backEnd := .writing (k + 1) }

def giveBack (newBuffer : Option (FixedBuffer SIZE)) (vector : List (Option (FixedBuffer SIZE))) :
    Option (Option (FixedBuffer SIZE) × List (Option (FixedBuffer SIZE))) :=
  match newBuffer with
  | some b => some (some b, vector)
  | none => (vector.getLast?.bind id).map fun b => (some b.reset, vector.dropLast)

def keepTwo (vector : List (Option (FixedBuffer SIZE))) : List (Option (FixedBuffer SIZE)) :=
  if 2 < vector.length then vector.take 2 else vector

def recycle (l : AsyncLogging SIZE) : Option (AsyncLogging SIZE) :=
  (giveBack l.newBuffer1 (keepTwo l.buffersToWrite)).bind fun (newBuffer1, kept) =>
  (giveBack l.newBuffer2 kept).map fun (newBuffer2, _) =>
  { l with
    newBuffer1 := newBuffer1
    newBuffer2 := newBuffer2
    buffersToWrite := []
    backEnd := .head }

inductive Action (SIZE : ℕ) where
  | start (m₁ m₂ : Memory SIZE)
  | append (logline : List Byte) (memory : Memory SIZE)
  | test
  | lock
  | wake
  | write
  | recycle
  | stop

/-- `start` runs once, and `stop` while running. `stop` returns when the back end has
exited. -/
def next (l : AsyncLogging SIZE) : Action SIZE → Option (AsyncLogging SIZE)
  | .start m₁ m₂ => if l.backEnd = .notStarted then some (l.start m₁ m₂) else none
  | .append logline memory => l.append logline memory
  | .test =>
    if l.backEnd = .head then
      some { l with backEnd := if l.running_ then .lock else .exited }
    else none
  | .lock =>
    if l.backEnd = .lock then
      some (if l.buffers_ = [] then { l with backEnd := .waiting } else l.swap)
    else none
  | .wake => if l.backEnd = .waiting then some l.swap else none
  | .write =>
    match l.backEnd with
    | .writing k => l.write k
    | _ => none
  | .recycle => if l.backEnd = .writing l.buffersToWrite.length then l.recycle else none
  | .stop => if l.running_ then some l.stop else none

def logging (SIZE : ℕ) : System (AsyncLogging SIZE) (Action SIZE) where
  init l := ∃ m₁ m₂, l = construct m₁ m₂
  next := next

section Shapes
variable {l l' : AsyncLogging SIZE}

theorem write_shape {k : ℕ} (h : l.write k = some l') :
    ∃ buffer, l.buffersToWrite[k]? = some (some buffer) ∧
      l' = { l with written := l.written ++ [buffer.content], backEnd := .writing (k + 1) } := by
  obtain ⟨buffer, hb, rfl⟩ := Option.map_eq_some_iff.mp h
  obtain ⟨slot, hslot, hid⟩ := Option.bind_eq_some_iff.mp hb
  exact ⟨buffer, (show slot = some buffer from hid) ▸ hslot, rfl⟩

theorem recycle_shape (h : l.recycle = some l') :
    ∃ new₁ new₂ kept rest, giveBack l.newBuffer1 (keepTwo l.buffersToWrite) = some (new₁, kept) ∧
      giveBack l.newBuffer2 kept = some (new₂, rest) ∧
      l' = { l with
        newBuffer1 := new₁
        newBuffer2 := new₂
        buffersToWrite := []
        backEnd := .head } := by
  obtain ⟨⟨new₁, kept⟩, first, h⟩ := Option.bind_eq_some_iff.mp h
  obtain ⟨⟨new₂, rest⟩, second, rfl⟩ := Option.map_eq_some_iff.mp h
  exact ⟨new₁, new₂, kept, rest, first, second, rfl⟩

end Shapes

section Ownership

def bytes (b : Option (FixedBuffer SIZE)) : List Byte := (b.map FixedBuffer.content).getD []

theorem bytes_some (b : FixedBuffer SIZE) : bytes (some b) = b.content := rfl

def Blank (b : Option (FixedBuffer SIZE)) : Prop := bytes b = []

theorem blank_allocated (m : Memory SIZE) : Blank (some (allocate m).bzero) :=
  FixedBuffer.construct_content (List.replicate SIZE 0) List.length_replicate

theorem blank_none : Blank (none : Option (FixedBuffer SIZE)) := rfl

def Phase (l : AsyncLogging SIZE) : Prop :=
  match l.backEnd with
  | .notStarted => l.buffersToWrite = []
  | .writing k => k ≤ l.buffersToWrite.length ∧ l.buffersToWrite ≠ [] ∧ l.newBuffer1 = none ∧
      (l.newBuffer2 = none → 2 ≤ l.buffersToWrite.length)
  | _ => l.buffersToWrite = [] ∧ l.newBuffer1.isSome ∧ l.newBuffer2.isSome

structure Valid (l : AsyncLogging SIZE) : Prop where
  current : l.currentBuffer_.isSome
  front : ∀ b ∈ l.buffers_, b.isSome
  back : ∀ b ∈ l.buffersToWrite, b.isSome
  nextBlank : Blank l.nextBuffer_
  blank₁ : Blank l.newBuffer1
  blank₂ : Blank l.newBuffer2
  spare : l.nextBuffer_ = none → l.buffers_ ≠ []
  phase : Phase l

theorem construct_valid (m₁ m₂ : Memory SIZE) : Valid (construct m₁ m₂) where
  current := rfl
  front := by simp [construct]
  back := by simp [construct]
  nextBlank := blank_allocated m₂
  blank₁ := rfl
  blank₂ := rfl
  spare := by simp [construct]
  phase := rfl

theorem start_valid {l : AsyncLogging SIZE} (h : Valid l) (idle : l.backEnd = .notStarted)
    (m₁ m₂ : Memory SIZE) : Valid (l.start m₁ m₂) := by
  have phase := h.phase
  simp only [Phase, idle] at phase
  exact ⟨h.current, h.front, h.back, h.nextBlank, blank_allocated m₁, blank_allocated m₂,
    h.spare, phase, rfl, rfl⟩

theorem append_valid {l l' : AsyncLogging SIZE} {logline : List Byte} {memory : Memory SIZE}
    (h : Valid l) (hl : l.append logline memory = some l') : Valid l' := by
  obtain ⟨current, hcurrent, rfl⟩ := Option.map_eq_some_iff.mp hl
  split_ifs
  · exact ⟨rfl, h.front, h.back, h.nextBlank, h.blank₁, h.blank₂, h.spare, h.phase⟩
  · refine ⟨rfl, ?_, h.back, rfl, h.blank₁, h.blank₂, fun _ => ?_, h.phase⟩
    · simp only [List.forall_mem_append, List.forall_mem_singleton]
      exact ⟨h.front, rfl⟩
    · exact List.append_ne_nil_of_right_ne_nil _ (List.cons_ne_nil _ _)

def Ready (l : AsyncLogging SIZE) : Prop :=
  l.buffersToWrite = [] ∧ l.newBuffer1.isSome ∧ l.newBuffer2.isSome

theorem swap_valid {l : AsyncLogging SIZE} (h : Valid l) (ready : Ready l) : Valid l.swap := by
  obtain ⟨empty, some₁, some₂⟩ := ready
  refine ⟨some₁, ?_, ?_, ?_, rfl, ?_, ?_, ?_⟩
  · simp [swap, empty]
  · simp only [swap, List.forall_mem_append, List.forall_mem_singleton]
    exact ⟨h.front, h.current⟩
  · cases hnext : l.nextBuffer_ with
    | none => simpa [swap, hnext] using h.blank₂
    | some b => simpa [swap, hnext] using h.nextBlank
  · cases hnext : l.nextBuffer_ with
    | none => simp [swap, hnext, blank_none]
    | some b => simpa [swap, hnext] using h.blank₂
  · intro missing
    cases hnext : l.nextBuffer_ with
    | none =>
      simp only [swap, hnext] at missing
      simp [missing] at some₂
    | some b => simp [swap, hnext] at missing
  · refine ⟨Nat.zero_le _, List.append_ne_nil_of_right_ne_nil _ (List.cons_ne_nil _ _), rfl, ?_⟩
    intro missing
    cases hnext : l.nextBuffer_ with
    | none =>
      have used := List.length_pos_iff.mpr (h.spare hnext)
      simp only [swap, List.length_append, List.length_singleton]
      omega
    | some b =>
      simp only [swap, hnext] at missing
      simp [missing] at some₂

theorem write_valid {l l' : AsyncLogging SIZE} {k : ℕ} (h : Valid l)
    (hpc : l.backEnd = .writing k) (hl : l.write k = some l') : Valid l' := by
  obtain ⟨buffer, slot, rfl⟩ := write_shape hl
  have inside := (List.getElem?_eq_some_iff.mp slot).1
  have phase := h.phase
  simp only [Phase, hpc] at phase
  exact ⟨h.current, h.front, h.back, h.nextBlank, h.blank₁, h.blank₂, h.spare, inside, phase.2⟩

theorem giveBack_filled {b b' : Option (FixedBuffer SIZE)}
    {vector vector' : List (Option (FixedBuffer SIZE))} (blank : Blank b)
    (h : giveBack b vector = some (b', vector')) : Blank b' ∧ b'.isSome := by
  cases b with
  | some b =>
    simp only [giveBack, Option.some.injEq, Prod.mk.injEq] at h
    exact ⟨h.1 ▸ blank, h.1 ▸ rfl⟩
  | none =>
    obtain ⟨buffer, -, same⟩ := Option.map_eq_some_iff.mp h
    simp only [Prod.mk.injEq] at same
    exact ⟨same.1 ▸ FixedBuffer.reset_content buffer, same.1 ▸ rfl⟩

theorem recycle_valid {l l' : AsyncLogging SIZE} (h : Valid l) (hl : l.recycle = some l') :
    Valid l' := by
  obtain ⟨new₁, new₂, kept, rest, first, second, rfl⟩ := recycle_shape hl
  obtain ⟨blank₁, some₁⟩ := giveBack_filled h.blank₁ first
  obtain ⟨blank₂, some₂⟩ := giveBack_filled h.blank₂ second
  exact ⟨h.current, h.front, by simp, h.nextBlank, blank₁, blank₂, h.spare, rfl, some₁, some₂⟩

theorem next_valid {l l' : AsyncLogging SIZE} {a : Action SIZE} (h : Valid l)
    (hn : next l a = some l') : Valid l' := by
  have phase := h.phase
  cases a with
  | start m₁ m₂ =>
    obtain ⟨idle, rfl⟩ := guard_met hn
    exact start_valid h idle m₁ m₂
  | append logline memory => exact append_valid h hn
  | test =>
    obtain ⟨hpc, rfl⟩ := guard_met hn
    simp only [Phase, hpc] at phase
    refine ⟨h.current, h.front, h.back, h.nextBlank, h.blank₁, h.blank₂, h.spare, ?_⟩
    unfold Phase
    split_ifs <;> exact phase
  | lock =>
    obtain ⟨hpc, rfl⟩ := guard_met hn
    simp only [Phase, hpc] at phase
    split_ifs
    · exact ⟨h.current, h.front, h.back, h.nextBlank, h.blank₁, h.blank₂, h.spare, phase⟩
    · exact swap_valid h phase
  | wake =>
    obtain ⟨hpc, rfl⟩ := guard_met hn
    simp only [Phase, hpc] at phase
    exact swap_valid h phase
  | write =>
    simp only [next] at hn
    split at hn
    · next k hpc => exact write_valid h hpc hn
    · cases hn
  | recycle =>
    simp only [next] at hn
    split_ifs at hn
    exact recycle_valid h hn
  | stop =>
    obtain ⟨-, rfl⟩ := guard_met hn
    exact ⟨h.current, h.front, h.back, h.nextBlank, h.blank₁, h.blank₂, h.spare, phase⟩

theorem logging_valid {l : AsyncLogging SIZE} {ok : AsyncLogging SIZE → Action SIZE → Prop}
    (h : (logging SIZE).Reachable ok l) : Valid l := by
  refine h.invariant (P := Valid) (fun l hi => ?_) fun _ _ _ hl _ hn => next_valid hl hn
  obtain ⟨m₁, m₂, rfl⟩ := hi
  exact construct_valid m₁ m₂

end Ownership

section Conservation

def progress : BackEnd → ℕ
  | .writing k => k
  | _ => 0

def unwritten (l : AsyncLogging SIZE) : List (List Byte) :=
  (l.buffersToWrite.drop (progress l.backEnd)).map bytes

def frontEnd (l : AsyncLogging SIZE) : List (List Byte) :=
  l.buffers_.map bytes ++ [bytes l.currentBuffer_]

def chunks (l : AsyncLogging SIZE) : List (List Byte) := l.written ++ l.unwritten ++ l.frontEnd

/-- The lines an empty buffer has room for; `append` drops the others. -/
def stored (l : AsyncLogging SIZE) : List (List Byte) :=
  l.lines.filter fun line => line.length < SIZE

def Conserved (l : AsyncLogging SIZE) : Prop := Carries l.chunks l.stored

theorem construct_conserved (m₁ m₂ : Memory SIZE) : Conserved (construct m₁ m₂) := by
  have blank := blank_allocated m₁
  simp only [Blank] at blank
  simp only [Conserved, chunks, unwritten, frontEnd, stored, construct, progress, blank]
  exact carries_empty

theorem append_blank {b : FixedBuffer SIZE} (blank : b.content = []) (line : List Byte) :
    (b.append line).content = if line.length < SIZE then line else [] := by
  have start : b.cur_ = 0 := by rw [← b.content_length, blank, List.length_nil]
  have room : b.avail = SIZE := by rw [FixedBuffer.avail, start, Nat.sub_zero]
  split_ifs with short
  · rw [FixedBuffer.append_content (room.symm ▸ short), blank, List.nil_append]
  · rw [FixedBuffer.append_refused (room.symm ▸ short), blank]

theorem append_conserved {l l' : AsyncLogging SIZE} {logline : List Byte} {memory : Memory SIZE}
    (h : Valid l) (hc : Conserved l) (hl : l.append logline memory = some l') :
    Conserved l' := by
  obtain ⟨current, hcurrent, rfl⟩ := Option.map_eq_some_iff.mp hl
  have old : Carries (l.written ++ l.unwritten ++ l.buffers_.map bytes ++ [current.content])
      l.stored := by
    rw [← bytes_some, ← hcurrent, List.append_assoc]
    exact hc
  split_ifs with fits
  · have short : logline.length < SIZE := lt_of_lt_of_le fits (Nat.sub_le _ _)
    have new := old.extend logline
    rw [← FixedBuffer.append_content fits] at new
    simpa [Conserved, AsyncLogging.chunks, unwritten, frontEnd, stored, bytes, short] using new
  · have spare : (l.nextBuffer_.getD (allocate memory)).content = [] := by
      have blank := h.nextBlank
      cases hnext : l.nextBuffer_ with
      | none => exact FixedBuffer.construct_content _ _
      | some b => simpa [Blank, bytes, hnext] using blank
    have taken := append_blank spare logline
    have fresh := old.fresh
    by_cases short : logline.length < SIZE
    · rw [if_pos short] at taken
      have new := fresh.extend logline
      rw [List.nil_append] at new
      simpa [taken, Conserved, AsyncLogging.chunks, unwritten, frontEnd, stored, bytes, short]
        using new
    · rw [if_neg short] at taken
      rw [← taken] at fresh
      simpa [Conserved, AsyncLogging.chunks, unwritten, frontEnd, stored, bytes, short] using fresh

theorem swap_chunks {l : AsyncLogging SIZE} (h : Valid l) (ready : Ready l) :
    l.swap.chunks = l.chunks ++ [[]] := by
  have blank : bytes l.newBuffer1 = [] := h.blank₁
  simp [chunks, unwritten, frontEnd, swap, progress, ready.1, blank]

theorem write_chunks {l l' : AsyncLogging SIZE} {k : ℕ} (hpc : l.backEnd = .writing k)
    (hl : l.write k = some l') : l'.chunks = l.chunks := by
  obtain ⟨buffer, slot, rfl⟩ := write_shape hl
  obtain ⟨inside, hget⟩ := List.getElem?_eq_some_iff.mp slot
  simp only [chunks, unwritten, frontEnd, progress, hpc, List.drop_eq_getElem_cons inside, hget,
    List.map_cons, bytes_some, List.append_assoc, List.singleton_append]

theorem recycle_chunks {l l' : AsyncLogging SIZE}
    (hpc : l.backEnd = .writing l.buffersToWrite.length) (hl : l.recycle = some l') :
    l'.chunks = l.chunks := by
  obtain ⟨-, -, -, -, -, -, rfl⟩ := recycle_shape hl
  simp [chunks, unwritten, frontEnd, progress, hpc]

theorem recycle_lines {l l' : AsyncLogging SIZE} (hl : l.recycle = some l') :
    l'.lines = l.lines := by
  obtain ⟨-, -, -, -, -, -, rfl⟩ := recycle_shape hl
  rfl

theorem Conserved.of_chunks {l l' : AsyncLogging SIZE} (h : Conserved l)
    (chunks : l'.chunks = l.chunks) (lines : l'.lines = l.lines) : Conserved l' := by
  unfold Conserved stored
  rw [chunks, lines]
  exact h

theorem next_conserved {l l' : AsyncLogging SIZE} {a : Action SIZE} (h : Valid l)
    (hc : Conserved l) (hn : next l a = some l') : Conserved l' := by
  have phase := h.phase
  have swapped : Ready l → Conserved l.swap := fun ready => by
    have fresh := Carries.fresh hc
    rw [← swap_chunks h ready] at fresh
    exact fresh
  cases a with
  | start m₁ m₂ =>
    obtain ⟨hpc, rfl⟩ := guard_met hn
    exact hc.of_chunks (by simp only [chunks, unwritten, frontEnd, start, progress, hpc]) rfl
  | append logline memory => exact append_conserved h hc hn
  | test =>
    obtain ⟨hpc, rfl⟩ := guard_met hn
    refine hc.of_chunks ?_ rfl
    split_ifs <;> simp only [chunks, unwritten, frontEnd, progress, hpc]
  | lock =>
    obtain ⟨hpc, rfl⟩ := guard_met hn
    simp only [Phase, hpc] at phase
    split_ifs
    · exact hc.of_chunks (by simp only [chunks, unwritten, frontEnd, progress, hpc]) rfl
    · exact swapped phase
  | wake =>
    obtain ⟨hpc, rfl⟩ := guard_met hn
    simp only [Phase, hpc] at phase
    exact swapped phase
  | write =>
    simp only [next] at hn
    split at hn
    · next k hpc =>
      refine hc.of_chunks (write_chunks hpc hn) ?_
      obtain ⟨buffer, -, rfl⟩ := write_shape hn
      rfl
    · cases hn
  | recycle =>
    simp only [next] at hn
    split_ifs at hn with hpc
    exact hc.of_chunks (recycle_chunks hpc hn) (recycle_lines hn)
  | stop =>
    obtain ⟨-, rfl⟩ := guard_met hn
    exact hc

theorem logging_conserved {l : AsyncLogging SIZE} {ok : AsyncLogging SIZE → Action SIZE → Prop}
    (h : (logging SIZE).Reachable ok l) : Conserved l := by
  refine h.invariant_under (P := Conserved) (fun _ hl => logging_valid hl) (fun l hi => ?_)
    fun _ _ _ valid hl _ hn => next_conserved valid hl hn
  obtain ⟨m₁, m₂, rfl⟩ := hi
  exact construct_conserved m₁ m₂

def Short (_ : AsyncLogging SIZE) : Action SIZE → Prop
  | .append logline _ => logline.length < SIZE
  | _ => True

theorem next_lines {l l' : AsyncLogging SIZE} {a : Action SIZE} (hn : next l a = some l') :
    (l'.lines = l.lines ∧ ∀ line memory, a ≠ .append line memory) ∨
      ∃ line memory, a = .append line memory ∧ l'.lines = l.lines ++ [line] := by
  cases a with
  | append logline memory =>
    obtain ⟨current, -, rfl⟩ := Option.map_eq_some_iff.mp hn
    refine .inr ⟨logline, memory, rfl, ?_⟩
    split_ifs <;> rfl
  | write =>
    simp only [next] at hn
    split at hn
    · obtain ⟨buffer, -, rfl⟩ := write_shape hn
      exact .inl ⟨rfl, by simp⟩
    · cases hn
  | recycle =>
    simp only [next] at hn
    split_ifs at hn
    exact .inl ⟨recycle_lines hn, by simp⟩
  | _ =>
    simp only [next] at hn
    split_ifs at hn <;> exact .inl ⟨Option.some.inj hn ▸ rfl, by simp⟩

instance (l : AsyncLogging SIZE) (a : Action SIZE) : Decidable (Short l a) := by
  cases a <;> unfold Short <;> infer_instance

theorem lines_short {l : AsyncLogging SIZE} (h : (logging SIZE).Reachable Short l) :
    ∀ line ∈ l.lines, line.length < SIZE := by
  refine h.invariant (P := fun l => ∀ line ∈ l.lines, line.length < SIZE) (fun l hi => ?_)
    fun l a l' hl ha hn => ?_
  · obtain ⟨m₁, m₂, rfl⟩ := hi
    simp [construct]
  · rcases next_lines hn with ⟨same, -⟩ | ⟨line, memory, rfl, lines⟩
    · exact same ▸ hl
    · rw [lines, List.forall_mem_append, List.forall_mem_singleton]
      exact ⟨hl, ha⟩

/-- The buffers written, still to write, full and current hold the appended lines in
order, each once and whole: every buffer holds consecutive whole lines. -/
theorem hand_over_conserves {l : AsyncLogging SIZE} (h : (logging SIZE).Reachable Short l) :
    Carries l.chunks l.lines ∧ l.chunks.flatten = l.lines.flatten := by
  have all : l.stored = l.lines := by
    refine List.filter_eq_self.mpr fun line mem => ?_
    simpa using lines_short h line mem
  have carries : Carries l.chunks l.lines := all ▸ logging_conserved h
  exact ⟨carries, carries.flatten⟩

theorem construct_initial (m₁ m₂ : Memory SIZE) : (logging SIZE).init (construct m₁ m₂) :=
  ⟨m₁, m₂, rfl⟩

def cells : Memory 4 := ⟨[0, 0, 0, 0], rfl⟩

theorem hand_over_conserves_small :
    ∃ l, (logging 4).Reachable Short l ∧ l.written = [[1, 2, 3]] ∧
      l.unwritten = [[4, 5]] ∧ l.frontEnd = [[6]] ∧
      Carries l.chunks l.lines ∧ l.chunks.flatten = l.lines.flatten := by
  have run : ((logging 4).execute Short (construct cells cells)
      [.start cells cells, .append [1, 2, 3] cells, .append [4, 5] cells, .test, .lock,
        .append [6] cells, .write]).map (fun l => (l.written, l.unwritten, l.frontEnd)) =
      some ([[1, 2, 3]], [[4, 5]], [[6]]) := by decide +kernel
  obtain ⟨l, reached, ends⟩ := System.Reachable.of_replay (construct_initial cells cells) run
  simp only [Prod.mk.injEq] at ends
  exact ⟨l, reached, ends.1, ends.2.1, ends.2.2, hand_over_conserves reached⟩

end Conservation

section Stop

def Started (l : AsyncLogging SIZE) : Prop :=
  l.running_ = true → l.backEnd ≠ .notStarted ∧ l.backEnd ≠ .exited

theorem next_started {l l' : AsyncLogging SIZE} {a : Action SIZE} (h : Started l)
    (hn : next l a = some l') : Started l' := by
  cases a with
  | start m₁ m₂ =>
    obtain ⟨-, rfl⟩ := guard_met hn
    exact fun _ => by simp [start]
  | append logline memory =>
    obtain ⟨current, -, rfl⟩ := Option.map_eq_some_iff.mp hn
    split_ifs <;> exact h
  | test =>
    obtain ⟨-, rfl⟩ := guard_met hn
    intro running
    simp only at running
    simp [running]
  | lock =>
    obtain ⟨-, rfl⟩ := guard_met hn
    split_ifs
    · exact fun _ => by simp
    · exact fun _ => by simp [swap]
  | wake =>
    obtain ⟨-, rfl⟩ := guard_met hn
    exact fun _ => by simp [swap]
  | write =>
    simp only [next] at hn
    split at hn
    · obtain ⟨buffer, -, rfl⟩ := write_shape hn
      exact fun _ => by simp
    · cases hn
  | recycle =>
    simp only [next] at hn
    split_ifs at hn
    obtain ⟨-, -, -, -, -, -, rfl⟩ := recycle_shape hn
    exact fun _ => by simp
  | stop =>
    obtain ⟨-, rfl⟩ := guard_met hn
    exact fun on => by simp [stop] at on

theorem logging_started {l : AsyncLogging SIZE} (h : (logging SIZE).Reachable Any l) :
    Started l := by
  refine h.invariant (P := Started) (fun l hi => ?_) fun _ _ _ hl _ hn => next_started hl hn
  obtain ⟨m₁, m₂, rfl⟩ := hi
  exact fun on => by simp [construct] at on

theorem ready_unwritten {l : AsyncLogging SIZE} (ready : Ready l) : l.unwritten = [] := by
  rw [unwritten, ready.1, List.drop_nil, List.map_nil]

/-- After the swap everything the front end held is the back end's. -/
theorem swap_written {l : AsyncLogging SIZE} (ready : Ready l) :
    l.swap.written ++ l.swap.unwritten = l.chunks := by
  rw [chunks, ready_unwritten ready, List.append_nil]
  simp [swap, unwritten, progress, frontEnd]

section Exit

theorem giveBack_enabled {vector : List (Option (FixedBuffer SIZE))} (some : ∀ b ∈ vector, b.isSome)
    (nonempty : vector ≠ []) : ∃ b, giveBack none vector = .some (.some b, vector.dropLast) := by
  have last := List.getLast?_eq_some_getLast nonempty
  obtain ⟨b, hb⟩ := Option.isSome_iff_exists.mp (some _ (List.getLast_mem nonempty))
  exact ⟨b.reset, by rw [giveBack, last, hb]; rfl⟩

theorem mem_of_mem_keepTwo {vector : List (Option (FixedBuffer SIZE))}
    {b : Option (FixedBuffer SIZE)} (h : b ∈ keepTwo vector) : b ∈ vector := by
  unfold keepTwo at h
  split_ifs at h
  · exact List.mem_of_mem_take h
  · exact h

theorem keepTwo_length (vector : List (Option (FixedBuffer SIZE))) :
    (keepTwo vector).length = min 2 vector.length := by
  unfold keepTwo
  split_ifs
  · exact List.length_take
  · omega

theorem recycle_enabled {l : AsyncLogging SIZE} (h : Valid l)
    (hpc : l.backEnd = .writing l.buffersToWrite.length) :
    ∃ l', l.recycle = some l' ∧ l'.backEnd = .head ∧ l'.running_ = l.running_ ∧
      l'.written = l.written := by
  have phase := h.phase
  simp only [Phase, hpc] at phase
  obtain ⟨-, nonempty, none₁, enough⟩ := phase
  have filled := List.length_pos_iff.mpr nonempty
  have size := keepTwo_length l.buffersToWrite
  obtain ⟨b₁, first⟩ := giveBack_enabled (fun b hb => h.back b (mem_of_mem_keepTwo hb))
    (List.length_pos_iff.mp (by omega : 0 < (keepTwo l.buffersToWrite).length))
  unfold recycle
  rw [none₁, first, Option.bind_some]
  cases hnew : l.newBuffer2 with
  | some b => exact ⟨_, rfl, rfl, rfl, rfl⟩
  | none =>
    have two := enough hnew
    have left : (keepTwo l.buffersToWrite).dropLast ≠ [] := by
      rw [← List.length_pos_iff, List.length_dropLast]
      omega
    obtain ⟨b₂, second⟩ := giveBack_enabled
      (fun b hb => h.back b (mem_of_mem_keepTwo ((List.dropLast_sublist _).mem hb))) left
    simp only [second]
    exact ⟨_, rfl, rfl, rfl, rfl⟩

theorem write_inside {l l' : AsyncLogging SIZE} {k : ℕ} (hl : l.write k = some l') :
    k < l.buffersToWrite.length := by
  obtain ⟨buffer, slot, -⟩ := write_shape hl
  exact (List.getElem?_eq_some_iff.mp slot).1

theorem write_enabled {l : AsyncLogging SIZE} (h : Valid l) {k : ℕ}
    (hk : k < l.buffersToWrite.length) :
    ∃ b, bytes l.buffersToWrite[k] = b ∧
      l.write k = some { l with written := l.written ++ [b], backEnd := .writing (k + 1) } := by
  obtain ⟨b, hb⟩ := Option.isSome_iff_exists.mp (h.back _ (List.getElem_mem hk))
  refine ⟨b.content, by rw [hb]; rfl, ?_⟩
  rw [write, List.getElem?_eq_getElem hk, hb]
  rfl

theorem next_path {l l' : AsyncLogging SIZE} {a : Action SIZE} (h : next l a = some l') :
    (logging SIZE).Path Any l l' :=
  System.Path.single trivial h

theorem exit_of_head {l : AsyncLogging SIZE} (hpc : l.backEnd = .head)
    (off : l.running_ = false) :
    (logging SIZE).Path Any l { l with backEnd := .exited } := by
  apply next_path (a := .test)
  rw [next, if_pos hpc, off]
  rfl

theorem exit_of_writing {n k : ℕ} {l : AsyncLogging SIZE} (h : Valid l)
    (off : l.running_ = false) (hpc : l.backEnd = .writing k)
    (hn : l.buffersToWrite.length = k + n) :
    ∃ u, (logging SIZE).Path Any l u ∧ u.backEnd = .exited ∧
      u.written = l.written ++ l.unwritten := by
  induction n generalizing k l with
  | zero =>
    rw [Nat.add_zero] at hn
    obtain ⟨l', hl, head, running, written⟩ := recycle_enabled h (hn ▸ hpc)
    have turn : next l .recycle = some l' := by rw [next, if_pos (hn ▸ hpc), hl]
    refine ⟨_, (next_path turn).trans (exit_of_head head (running.trans off)), rfl, ?_⟩
    rw [unwritten, hpc, progress, ← hn, List.drop_length, List.map_nil, List.append_nil]
    exact written
  | succ n ih =>
    have hk : k < l.buffersToWrite.length := by omega
    obtain ⟨b, content, hl⟩ := write_enabled h hk
    have taken : next l .write =
        some { l with written := l.written ++ [b], backEnd := .writing (k + 1) } := by
      simp only [next, hpc, hl]
    obtain ⟨u, run, exited, written⟩ := ih (next_valid h taken) off rfl
      (by rw [hn]; omega)
    refine ⟨u, (next_path taken).trans run, exited, ?_⟩
    rw [written]
    simp only [unwritten, hpc, progress, List.drop_eq_getElem_cons hk, List.map_cons, content,
      List.append_assoc, List.singleton_append]

def TakesFront (l : AsyncLogging SIZE) : Prop := l.backEnd = .lock ∨ l.backEnd = .waiting

theorem exit_of_takesFront {l : AsyncLogging SIZE} (h : Valid l) (off : l.running_ = false)
    (takes : TakesFront l) :
    ∃ u, (logging SIZE).Path Any l u ∧ u.backEnd = .exited ∧ u.written = l.chunks := by
  have phase := h.phase
  have ready : Ready l := by
    rcases takes with hpc | hpc <;> simp only [Phase, hpc] at phase <;> exact phase
  have swapped : (logging SIZE).Path Any l l.swap := by
    rcases takes with hpc | hpc
    · by_cases none : l.buffers_ = []
      · have waits : next l .lock = some { l with backEnd := .waiting } := by
          rw [next, if_pos hpc, if_pos none]
        exact (next_path waits).trans (next_path (a := .wake) rfl)
      · apply next_path (a := .lock)
        rw [next, if_pos hpc, if_neg none]
    · apply next_path (a := .wake)
      rw [next, if_pos hpc]
  obtain ⟨u, run, exited, written⟩ := exit_of_writing (k := 0) (swap_valid h ready) off rfl
    (Nat.zero_add _).symm
  exact ⟨u, swapped.trans run, exited, written.trans (swap_written ready)⟩

end Exit

section Draining
variable (before : List (List Byte))

/-- After `stop`: the lines `before` are whole in what the back end writes, or it still
takes the front end over. -/
structure Draining (l : AsyncLogging SIZE) : Prop where
  off : l.running_ = false
  begun : l.backEnd ≠ .notStarted
  appended : before <+: l.lines
  flushed : TakesFront l ∨ before.flatten <+: (l.written ++ l.unwritten).flatten

variable {before} (short : ∀ line ∈ before, line.length < SIZE)
include short

theorem before_stored {l : AsyncLogging SIZE} (h : before <+: l.lines) : before <+: l.stored := by
  have all : before.filter (fun line => line.length < SIZE) = before :=
    List.filter_eq_self.mpr fun line mem => by simpa using short line mem
  have part := h.filter fun line => decide (line.length < SIZE)
  rwa [all] at part

theorem swap_draining {l : AsyncLogging SIZE} (hc : Conserved l) (ready : Ready l)
    (h : Draining before l) : Draining before l.swap := by
  refine ⟨h.off, by simp [swap], h.appended, .inr ?_⟩
  rw [swap_written ready, Carries.flatten hc]
  exact (before_stored short h.appended).flatten

theorem next_draining {l l' : AsyncLogging SIZE} {a : Action SIZE} (hv : Valid l)
    (hc : Conserved l) (h : Draining before l) (hn : next l a = some l') :
    Draining before l' := by
  have phase := hv.phase
  cases a with
  | start m₁ m₂ => simp [next, h.begun] at hn
  | append logline memory =>
    have lines : l.lines <+: l.lines ++ [logline] := List.prefix_append _ _
    obtain ⟨current, -, rfl⟩ := Option.map_eq_some_iff.mp hn
    split_ifs <;> exact ⟨h.off, h.begun, h.appended.trans lines, h.flushed⟩
  | test =>
    obtain ⟨hpc, rfl⟩ := guard_met hn
    have flushed := h.flushed.resolve_left (by simp [TakesFront, hpc])
    simp only [unwritten, hpc, progress] at flushed
    refine ⟨h.off, by simp [h.off], h.appended, .inr ?_⟩
    simp only [unwritten, h.off]
    exact flushed
  | lock =>
    obtain ⟨hpc, rfl⟩ := guard_met hn
    simp only [Phase, hpc] at phase
    split_ifs
    · exact ⟨h.off, by simp, h.appended, .inl (.inr rfl)⟩
    · exact swap_draining short hc phase h
  | wake =>
    obtain ⟨hpc, rfl⟩ := guard_met hn
    simp only [Phase, hpc] at phase
    exact swap_draining short hc phase h
  | write =>
    simp only [next] at hn
    split at hn
    · next k hpc =>
      have flushed := h.flushed.resolve_left (by simp [TakesFront, hpc])
      obtain ⟨b, content, hl⟩ := write_enabled hv (write_inside hn)
      obtain rfl := Option.some.inj (hl.symm.trans hn)
      refine ⟨h.off, by simp, h.appended, .inr ?_⟩
      simp only [unwritten, hpc, progress, List.drop_eq_getElem_cons (write_inside hn),
        List.map_cons, content] at flushed
      simpa only [unwritten, progress, List.append_assoc, List.singleton_append] using flushed
    · cases hn
  | recycle =>
    simp only [next] at hn
    split_ifs at hn with hpc
    have flushed := h.flushed.resolve_left (by simp [TakesFront, hpc])
    simp only [unwritten, hpc, progress, List.drop_length, List.map_nil] at flushed
    obtain ⟨l'', hl, head, running, written⟩ := recycle_enabled hv hpc
    have empty := (recycle_valid hv hl).phase
    simp only [Phase, head] at empty
    have lines := recycle_lines hl
    obtain rfl := Option.some.inj (hl.symm.trans hn)
    refine ⟨running.trans h.off, by simp [head], lines ▸ h.appended, .inr ?_⟩
    rw [written, ready_unwritten empty]
    exact flushed
  | stop => simp [next, h.off] at hn

omit short in
theorem exited_flushed {l : AsyncLogging SIZE} (hv : Valid l) (h : Draining before l)
    (exited : l.backEnd = .exited) : before.flatten <+: l.written.flatten := by
  have flushed := h.flushed.resolve_left (by simp [TakesFront, exited])
  have empty := hv.phase
  simp only [Phase, exited] at empty
  rwa [ready_unwritten empty, List.append_nil] at flushed

end Draining

theorem stored_all (positive : 0 < SIZE) {lines : List (List Byte)}
    (h : lines.flatten.length ≤
      (lines.filter fun line => line.length < SIZE).flatten.length) :
    ∀ line ∈ lines, line.length < SIZE := by
  induction lines with
  | nil => simp
  | cons line rest ih =>
    have part : (rest.filter fun line => line.length < SIZE).flatten.length ≤
        rest.flatten.length := (List.filter_sublist.flatten).length_le
    by_cases short : line.length < SIZE
    · rw [List.filter_cons_of_pos (by simpa using short)] at h
      simp only [List.flatten_cons, List.length_append] at h
      exact List.forall_mem_cons.mpr ⟨short, ih (by omega)⟩
    · rw [List.filter_cons_of_neg (by simpa using short)] at h
      simp only [List.flatten_cons, List.length_append] at h
      omega

def Flushes (l : AsyncLogging SIZE) : Prop :=
  (∀ line ∈ l.lines, line.length < SIZE) ∧ (TakesFront l ∨ l.frontEnd.flatten = [])

theorem exit_of_others {l : AsyncLogging SIZE} (h : Valid l.stop)
    (begun : l.backEnd ≠ .notStarted ∧ l.backEnd ≠ .exited) (others : ¬TakesFront l) :
    ∃ u, (logging SIZE).Path Any l.stop u ∧ u.backEnd = .exited ∧
      u.written = l.written ++ l.unwritten := by
  have phase := h.phase
  cases hpc : l.backEnd with
  | notStarted => exact absurd hpc begun.1
  | exited => exact absurd hpc begun.2
  | lock => exact absurd (.inl hpc) others
  | waiting => exact absurd (.inr hpc) others
  | head =>
    have ready : Ready l.stop := by
      simp only [Phase, stop, hpc] at phase
      exact phase
    refine ⟨_, exit_of_head hpc rfl, rfl, ?_⟩
    rw [show l.unwritten = l.stop.unwritten from rfl, ready_unwritten ready, List.append_nil]
    rfl
  | writing k =>
    simp only [Phase, stop, hpc] at phase
    exact exit_of_writing (n := l.buffersToWrite.length - k) h rfl hpc
      (by have := phase.1; simp only [stop]; omega)

/-- Once `stop` is called at `l`, every line appended before is written in every state
in which the back end has exited, exactly when `l` flushes. -/
theorem stop_flushes (positive : 0 < SIZE) {l t : AsyncLogging SIZE}
    (h : (logging SIZE).Reachable Any l) (hs : next l .stop = some t) :
    (∀ u, (logging SIZE).Path Any t u → u.backEnd = .exited →
      l.lines.flatten <+: u.written.flatten) ↔ Flushes l := by
  have reached : (logging SIZE).Reachable Any t := h.path (next_path hs)
  have valid := logging_valid reached
  have content := Carries.flatten (logging_conserved h)
  obtain ⟨running, rfl⟩ := guard_met hs
  constructor
  · intro always
    by_cases takes : TakesFront l
    · obtain ⟨u, run, exited, written⟩ := exit_of_takesFront valid rfl takes
      have all := (always u run exited).length_le
      rw [written, show l.stop.chunks = l.chunks from rfl, content] at all
      exact ⟨stored_all positive all, .inl takes⟩
    · obtain ⟨u, run, exited, written⟩ :=
        exit_of_others valid (logging_started h running) takes
      have all := (always u run exited).length_le
      rw [written] at all
      have split : l.stored.flatten.length =
          (l.written ++ l.unwritten).flatten.length + l.frontEnd.flatten.length := by
        rw [← content, ← List.length_append, ← List.flatten_append]
        rfl
      have part : l.stored.flatten.length ≤ l.lines.flatten.length :=
        (List.filter_sublist.flatten).length_le
      refine ⟨stored_all positive (show _ ≤ l.stored.flatten.length by omega), .inr ?_⟩
      exact List.length_eq_zero_iff.mp (by omega)
  · rintro ⟨short, condition⟩ u run exited
    have begun := (logging_started h running).1
    have draining : Draining l.lines l.stop := by
      refine ⟨rfl, begun, List.prefix_refl _, condition.imp id fun empty => ?_⟩
      have stored : l.lines <+: l.stored := before_stored short (List.prefix_refl _)
      have whole := stored.flatten
      rw [← content, chunks, List.flatten_append, empty, List.append_nil] at whole
      exact whole
    have last := run.stable
      (P := fun l' => (logging SIZE).Reachable Any l' ∧ Draining l.lines l')
      (fun l' a l'' hl _ hn => ⟨hl.1.path (next_path hn),
        next_draining short (logging_valid hl.1) (logging_conserved hl.1) hl.2 hn⟩)
      ⟨reached, draining⟩
    exact exited_flushed (logging_valid last.1) last.2 exited

theorem stop_flushes_at_lock :
    ∃ l t, (logging 4).Reachable Any l ∧ next l .stop = some t ∧ l.lines = [[1]] ∧
      ((∀ u, (logging 4).Path Any t u → u.backEnd = .exited →
        l.lines.flatten <+: u.written.flatten) ↔ Flushes l) := by
  have run : ((logging 4).execute Any (construct cells cells)
      [.start cells cells, .append [1] cells, .test]).map
      (fun l => (l.running_, l.lines)) = some (true, [[1]]) := by decide +kernel
  obtain ⟨l, reached, ends⟩ := System.Reachable.of_replay (construct_initial cells cells) run
  simp only [Prod.mk.injEq] at ends
  have stops : next l .stop = some l.stop := if_pos ends.1
  exact ⟨l, l.stop, reached, stops, ends.2, stop_flushes (by decide) reached stops⟩

def zeros : Memory kLargeBuffer := ⟨List.replicate kLargeBuffer 0, List.length_replicate⟩

def appended : AsyncLogging kLargeBuffer :=
  { (construct zeros zeros).start zeros zeros with
    currentBuffer_ := some ((allocate zeros).bzero.append [1])
    lines := [[1]] }

/-- Stopped then, the back end exits at once: nothing is written, and the line stays in
the current buffer. -/
theorem stop_loses_line :
    (logging kLargeBuffer).Reachable Any appended ∧ next appended .stop = some appended.stop ∧
      ∃ u, (logging kLargeBuffer).Path Any appended.stop u ∧ u.backEnd = .exited ∧
        appended.lines = [[1]] ∧ u.written = [] ∧ bytes u.currentBuffer_ = [1] := by
  have started : next (construct zeros zeros) (.start zeros zeros) =
      some ((construct zeros zeros).start zeros zeros) := rfl
  have first : next ((construct zeros zeros).start zeros zeros) (.append [1] zeros) =
      some appended := by
    have room : ([1] : List Byte).length < (allocate zeros).bzero.avail := by decide
    exact congrArg some (if_pos room)
  have left : bytes appended.currentBuffer_ = [1] := by
    have blank : (allocate zeros).bzero.content = [] := blank_allocated zeros
    have short : ([1] : List Byte).length < kLargeBuffer := by decide
    have held : appended.currentBuffer_ = some ((allocate zeros).bzero.append [1]) := rfl
    rw [held, bytes_some, append_blank blank, if_pos short]
  have stops : next appended .stop = some appended.stop := by
    rw [next]
    exact if_pos rfl
  have run := (next_path started).trans (next_path first)
  have exits := exit_of_head (l := appended.stop) rfl rfl
  have reached := (System.Reachable.initial (construct_initial zeros zeros)).path run
  refine ⟨reached, stops, _, exits, ?_⟩
  exact ⟨rfl, rfl, rfl, left⟩

end Stop

section Recycling

/-- `back()` and `pop_back()` find a buffer: the vector is not empty for `newBuffer1`, and
it is still not empty for `newBuffer2` where that pointer was given away, too. -/
theorem recycle_nonempty {l : AsyncLogging SIZE} (h : Valid l)
    (hpc : l.backEnd = .writing l.buffersToWrite.length) :
    keepTwo l.buffersToWrite ≠ [] ∧
      ∀ newBuffer1 kept,
        giveBack l.newBuffer1 (keepTwo l.buffersToWrite) = some (newBuffer1, kept) →
        l.newBuffer2 = none → kept ≠ [] := by
  have phase := h.phase
  simp only [Phase, hpc] at phase
  obtain ⟨-, nonempty, none₁, enough⟩ := phase
  have filled := List.length_pos_iff.mpr nonempty
  have size := keepTwo_length l.buffersToWrite
  refine ⟨List.length_pos_iff.mp (by omega), ?_⟩
  intro newBuffer1 kept first none₂
  have two := enough none₂
  rw [none₁] at first
  obtain ⟨b, -, same⟩ := Option.map_eq_some_iff.mp first
  rw [← (Prod.mk.inj same).2, ← List.length_pos_iff, List.length_dropLast]
  omega

/-- In every run no null pointer is used and no empty vector is taken the back of:
`append`, the writing loop and the recycling after it always go through. -/
theorem buffers_present {l : AsyncLogging SIZE} {ok : AsyncLogging SIZE → Action SIZE → Prop}
    (h : (logging SIZE).Reachable ok l) :
    (l.currentBuffer_.isSome ∧ ∀ logline memory, (l.append logline memory).isSome) ∧
    (l.backEnd = .head → l.newBuffer1.isSome ∧ l.newBuffer2.isSome ∧ l.buffersToWrite = []) ∧
    (∀ b ∈ l.buffers_, b.isSome) ∧
    (∀ k, l.backEnd = .writing k → k < l.buffersToWrite.length → (l.write k).isSome) ∧
    (l.backEnd = .writing l.buffersToWrite.length →
      (l.newBuffer1 = none → keepTwo l.buffersToWrite ≠ []) ∧
      (∀ newBuffer1 kept,
        giveBack l.newBuffer1 (keepTwo l.buffersToWrite) = some (newBuffer1, kept) →
        l.newBuffer2 = none → kept ≠ []) ∧
      l.recycle.isSome) := by
  have valid := logging_valid h
  refine ⟨⟨valid.current, ?_⟩, ?_, valid.front, ?_, ?_⟩
  · intro logline memory
    rw [append, Option.isSome_map]
    exact valid.current
  · intro head
    have phase := valid.phase
    simp only [Phase, head] at phase
    exact ⟨phase.2.1, phase.2.2, phase.1⟩
  · intro k _ inside
    obtain ⟨b, -, written⟩ := write_enabled valid inside
    exact Option.isSome_iff_exists.mpr ⟨_, written⟩
  · intro turn
    obtain ⟨l', recycled, -⟩ := recycle_enabled valid turn
    obtain ⟨first, second⟩ := recycle_nonempty valid turn
    exact ⟨fun _ => first, second, Option.isSome_iff_exists.mpr ⟨l', recycled⟩⟩

theorem buffers_present_small :
    ∃ l, (logging 4).Reachable Any l ∧ l.buffersToWrite.length = 2 ∧ l.newBuffer1 = none ∧
      l.newBuffer2 = none ∧ l.recycle.isSome := by
  have run : ((logging 4).execute Any (construct cells cells)
      [.start cells cells, .append [1, 2, 3] cells, .append [4, 5] cells, .test, .lock,
        .append [6] cells, .write, .write]).map
      (fun l => (l.buffersToWrite.length, l.newBuffer1.isNone, l.newBuffer2.isNone, l.backEnd)) =
      some (2, true, true, .writing 2) := by decide +kernel
  obtain ⟨l, reached, ends⟩ := System.Reachable.of_replay (construct_initial cells cells) run
  simp only [Prod.mk.injEq, Option.isNone_iff_eq_none] at ends
  obtain ⟨two, none₁, none₂, turn⟩ := ends
  exact ⟨l, reached, two, none₁, none₂, ((buffers_present reached).2.2.2.2 (two ▸ turn)).2.2⟩

end Recycling

end AsyncLogging

end TinyNetwork
