import TinyNetwork.BufferQueue
import TinyNetwork.BufferRange

/-! Histories of a buffer with every length the callers may pass, and with `readFd`. The
index order and the content survive as long as each length asked of `append` or
`ensureWritableBytes` passes through the `int` of `makeSpace`; then `readFd` is one append
of what was received, wherever `::readv` put it. -/
namespace TinyNetwork.Buffer
open MachineWord MemoryRegion Transition

def ReadResult.bytes : ReadResult → List Byte
  | .received bytes => bytes
  | .failed _ => []

/-- `::readv` returns no more than it was offered. -/
def Offered (b : Buffer) (r : ReadResult) : Prop := r.bytes.length ≤ b.readOffer

instance (b : Buffer) (r : ReadResult) : Decidable (b.Offered r) := by
  unfold Offered
  infer_instance

inductive Call where
  | op (op : Op)
  | readFd (saveErrno : ℤ) (r : ReadResult)

def call (b : Buffer) : Call → Option Buffer
  | .op op => (b.perform op).map Prod.fst
  | .readFd saveErrno r =>
    if b.Offered r then (b.readFd saveErrno r).map Prod.fst else none

def bufferTraffic (initialSize : ℕ) : System Buffer Call where
  init b := construct initialSize = some b
  next := call

def Passing (b : Buffer) : Call → Prop
  | .op (.append data) => b.Passes data.length
  | .op (.ensureWritableBytes len) => b.Passes len
  | _ => True

instance (b : Buffer) : (c : Call) → Decidable (b.Passing c)
  | .op (.append data) => inferInstanceAs (Decidable (b.Passes data.length))
  | .op (.ensureWritableBytes len) => inferInstanceAs (Decidable (b.Passes len))
  | .op (.retrieve _) => isTrue trivial
  | .op (.retrieveUntil _) => isTrue trivial
  | .op .retrieveAll => isTrue trivial
  | .op .retrieveAllAsString => isTrue trivial
  | .op (.retrieveAsString _) => isTrue trivial
  | .readFd _ _ => isTrue trivial

variable {b b' : Buffer} {initialSize : ℕ} {saveErrno e n : ℤ} {r : ReadResult}

section Reading

structure ReadsInto (b : Buffer) (saveErrno : ℤ) (r : ReadResult) (b' : Buffer) (n e : ℤ) :
    Prop where
  prepend_le : kCheapPrepend ≤ b'.readerIndex_
  reader_le : b'.readerIndex_ ≤ b'.writerIndex_
  writer_le : b'.writerIndex_ ≤ b'.buffer_.length
  content : readable b' = readable b ++ r.bytes
  appended : ∀ c, b.append r.bytes = some c → readable b' = readable c
  received : ∀ bytes, r = .received bytes → n = bytes.length ∧ e = saveErrno
  failed : ∀ errno, r = .failed errno → n = -1 ∧ e = errno ∧
    b'.readerIndex_ = b.readerIndex_ ∧ b'.writerIndex_ = b.writerIndex_

def ReadsOnce (b : Buffer) (saveErrno : ℤ) (r : ReadResult) : Prop :=
  (b.writerIndex_ + r.bytes.length ≤ maxSize → ∃ result, b.readFd saveErrno r = some result) ∧
    ∀ b' n e, b.readFd saveErrno r = some (b', n, e) → ReadsInto b saveErrno r b' n e

theorem offered_over (offered : b.Offered r) (beyond : ¬r.bytes.length ≤ b.writableBytes) :
    r.bytes.length - b.writableBytes ≤ extraSize := by
  unfold Offered readOffer at offered
  split_ifs at offered <;> omega

variable (h : WellFormed b)
include h

theorem fill_spec (bytes : List Byte) (hb : b' = { b with
      buffer_ := overwrite b.buffer_ b.writerIndex_ (bytes.take b.writableBytes)
      writerIndex_ := sizeAdd b.writerIndex_ (bytes.take b.writableBytes).length }) :
    WellFormed b' ∧ readable b' = readable b ++ bytes.take b.writableBytes := by
  refine copy_spec h ?_ hb
  have hw := h.writer_le
  rw [List.length_take, writableBytes_eq h]
  omega

theorem filled_spec {bytes : List Byte} (beyond : ¬bytes.length ≤ b.writableBytes)
    (hb : b' = { b with
      buffer_ := overwrite b.buffer_ b.writerIndex_ (bytes.take b.writableBytes)
      writerIndex_ := b.buffer_.length }) :
    WellFormed b' ∧ readable b' = readable b ++ bytes.take b.writableBytes := by
  refine fill_spec h bytes (hb.trans ?_)
  have hw := h.writer_le
  have hs := h.size_le
  unfold maxSize at hs
  rw [List.length_take, Nat.min_eq_left (Nat.le_of_not_le beyond), writableBytes_eq h,
    sizeAdd_of_lt (by omega), Nat.add_sub_cancel' hw]

theorem readFd_content (offered : b.Offered r) (hb : b.readFd saveErrno r = some (b', n, e)) :
    WellFormed b' ∧ readable b' = readable b ++ r.bytes := by
  cases r with
  | failed errno =>
    cases hb
    exact ⟨h, (List.append_nil _).symm⟩
  | received bytes =>
    simp only [readFd] at hb
    by_cases beyond : bytes.length ≤ b.writableBytes
    · rw [if_pos beyond] at hb
      have whole : bytes.take b.writableBytes = bytes := List.take_of_length_le beyond
      have filled := fill_spec h bytes rfl
      rw [whole] at filled hb
      cases hb
      exact filled
    · rw [if_neg beyond] at hb
      obtain ⟨c, hc, same⟩ := Option.map_eq_some_iff.mp hb
      cases same
      have small := offered_over offered beyond
      simp only [ReadResult.bytes, extraSize] at small
      obtain ⟨kept, content⟩ := filled_spec h beyond rfl
      obtain ⟨kept, joined⟩ := append_spec kept (fun _ => by
        rw [List.length_drop]
        omega) hc
      refine ⟨kept, ?_⟩
      rw [joined, content, List.append_assoc, List.take_append_drop]
      rfl

theorem readFd_returns (offered : b.Offered r) (fits : b.writerIndex_ + r.bytes.length ≤ maxSize) :
    ∃ result, b.readFd saveErrno r = some result := by
  cases r with
  | failed errno => exact ⟨_, rfl⟩
  | received bytes =>
    simp only [readFd]
    by_cases beyond : bytes.length ≤ b.writableBytes
    · exact ⟨_, if_pos beyond⟩
    · have small := offered_over offered beyond
      obtain ⟨kept, -⟩ := filled_spec h beyond rfl
      have hw := h.writer_le
      simp only [ReadResult.bytes, extraSize] at fits small
      have left := List.length_drop (i := b.writableBytes) (l := bytes)
      have room := writableBytes_eq h
      obtain ⟨c, hc⟩ := append_returns kept (bytes.drop b.writableBytes)
        (.inr (.inl (by omega))) (by simp only; omega)
      rw [if_neg beyond, hc]
      exact ⟨_, rfl⟩

/-- `readFd` is one `append` of what it received. -/
theorem readFd_once (offered : b.Offered r) : ReadsOnce b saveErrno r := by
  refine ⟨readFd_returns h offered, fun b' n e hb => ?_⟩
  obtain ⟨kept, content⟩ := readFd_content h offered hb
  refine ⟨kept.prepend_le, kept.reader_le, kept.writer_le, content, fun c hc => ?_, ?_, ?_⟩
  · have fits : b.Fits r.bytes.length := fun full => by
      unfold Offered readOffer extraSize at offered
      split_ifs at offered <;> omega
    exact content.trans (append_spec h fits hc).2.symm
  · rintro bytes rfl
    simp only [readFd] at hb
    split_ifs at hb
    · cases hb
      exact ⟨rfl, rfl⟩
    · obtain ⟨c, -, same⟩ := Option.map_eq_some_iff.mp hb
      cases same
      exact ⟨rfl, rfl⟩
  · rintro errno rfl
    cases hb
    exact ⟨rfl, rfl, rfl, rfl⟩

end Reading

section Run

theorem perform_wellFormed (h : WellFormed b) {op : Op} (passing : b.Passing (.op op))
    {out : Option (List (Option Byte))} (hb : b.perform op = some (b', out)) : WellFormed b' := by
  cases op with
  | append data =>
    obtain ⟨c, hc, same⟩ := Option.map_eq_some_iff.mp hb
    cases same
    exact (append_passes h passing hc).1
  | ensureWritableBytes len =>
    obtain ⟨c, hc, same⟩ := Option.map_eq_some_iff.mp hb
    cases same
    exact (passes_spec h passing hc).1
  | retrieve len =>
    cases hb
    exact retrieve_wellFormed h len
  | retrieveUntil ahead =>
    cases hb
    exact retrieve_wellFormed h _
  | retrieveAll =>
    cases hb
    exact retrieveAll_wellFormed h
  | retrieveAllAsString =>
    cases hb
    exact retrieve_wellFormed h _
  | retrieveAsString len =>
    cases hb
    exact retrieve_wellFormed h len

theorem call_wellFormed (h : WellFormed b) {c : Call} (passing : b.Passing c)
    (hc : b.call c = some b') : WellFormed b' := by
  cases c with
  | op op =>
    obtain ⟨⟨d, out⟩, hb, rfl⟩ := Option.map_eq_some_iff.mp hc
    exact perform_wellFormed h passing hb
  | readFd saveErrno r =>
    obtain ⟨offered, taken⟩ := Option.ite_none_right_eq_some.mp hc
    obtain ⟨⟨d, n, e⟩, hb, rfl⟩ := Option.map_eq_some_iff.mp taken
    exact (readFd_content h offered hb).1

theorem traffic_wellFormed (small : kCheapPrepend + initialSize < 2 ^ 64)
    (h : (bufferTraffic initialSize).Reachable Passing b) : WellFormed b :=
  h.invariant (P := WellFormed) (fun _ hi => (construct_wellFormed small hi).1)
    fun _ _ _ hb passing hc => call_wellFormed hb passing hc

/-- Whatever the callers ask for, as long as the lengths pass: each `readFd` is one `append`
of all it received, for every initial size that does not wrap, and no other. -/
theorem readFd_appends (hsize : initialSize < 2 ^ 64) :
    (∀ b, (bufferTraffic initialSize).Reachable Passing b →
      ∀ saveErrno r, b.Offered r → ReadsOnce b saveErrno r) ↔
      kCheapPrepend + initialSize < 2 ^ 64 := by
  constructor
  · intro reads
    by_contra wraps
    obtain ⟨b, hb, short⟩ := BufferQueue.construct_wrapped hsize wraps
    have read := (reads b (.initial hb) 0 (.failed 0) (Nat.zero_le _)).2 b (-1) 0 rfl
    exact absurd short (Nat.not_lt_of_le read.writer_le)
  · intro small b reached saveErrno r offered
    exact readFd_once (traffic_wellFormed small reached) offered

theorem readFd_appends_default :
    kInitialSize < 2 ^ 64 ∧ ((∀ b, (bufferTraffic kInitialSize).Reachable Passing b →
      ∀ saveErrno r, b.Offered r → ReadsOnce b saveErrno r) ↔
        kCheapPrepend + kInitialSize < 2 ^ 64) :=
  ⟨by decide, readFd_appends (by decide)⟩

/-- Asking for `2^32 - 50` bytes cuts a vector with 100 readable bytes to 58, and a `readFd`
that fails then leaves the writer index past the end. -/
theorem readFd_after_cut :
    ¬∀ b, (bufferTraffic kInitialSize).Reachable Any b →
      ∀ saveErrno r, b.Offered r → ReadsOnce b saveErrno r := by
  intro reads
  have run : ((bufferTraffic kInitialSize).execute Any fresh
      [.op (.append (List.replicate 100 7)), .op (.ensureWritableBytes (2 ^ 32 - 50))]).map
      (fun b => (b.writerIndex_, b.buffer_.length)) = some (108, 58) := by decide +kernel
  obtain ⟨b, reached, cut⟩ := System.Reachable.of_replay construct_initial run
  have read := (reads b reached 0 (.failed 0) (Nat.zero_le _)).2 b (-1) 0 rfl
  obtain ⟨writer, size⟩ := Prod.mk.inj cut
  have ordered := read.writer_le
  rw [writer, size] at ordered
  exact absurd ordered (by decide)

end Run

end TinyNetwork.Buffer
