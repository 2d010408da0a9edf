import TinyNetwork.MachineWord
import Mathlib.Algebra.BigOperators.Group.Finset.Basic
import Mathlib.Algebra.Order.BigOperators.Group.Finset

/-! The log file of `logger/FileUtil.cc`. A call of `fwrite_unlocked` accepts a part of
what it is asked to write, and a short count sets the error indicator of the stream;
`accepts k` is what the `k`-th call of one `append` accepts. The loop of `append` is
cut off by a number of turns. -/
namespace TinyNetwork
open MachineWord

/-- The stream behind `fp_`: what its file holds once all it accepted is there, and its error
indicator. -/
structure Stream where
  bytes : List Byte
  error : Bool

namespace Stream

def fwrite_unlocked (s : Stream) (n : ℕ) (data : List Byte) : Stream where
  bytes := s.bytes ++ data.take n
  error := s.error || n != data.length

def ferror (s : Stream) : ℤ := if s.error then 1 else 0

end Stream

structure FileUtil where
  fp_ : Stream
  writtenBytes_ : ℤ
  stderr : List String

namespace FileUtil

/-- The constructor opens the file in append mode: the stream goes on behind what the file
holds, `existing`, and `writtenBytes_` counts from zero. -/
def construct (existing : List Byte) : FileUtil := ⟨⟨existing, false⟩, 0, []⟩

def writtenBytes (f : FileUtil) : ℤ := f.writtenBytes_

def flush (f : FileUtil) : FileUtil := f

def write (f : FileUtil) (n : ℕ) (data : List Byte) : ℕ × FileUtil :=
  (n, { f with fp_ := f.fp_.fwrite_unlocked n data })

section Append
variable (getErrnoMsg : ℤ → String) (accepts : ℕ → ℕ)

def report (f : FileUtil) : FileUtil :=
  let err := f.fp_.ferror
  if err ≠ 0 then
    { f with stderr := f.stderr ++ ["FileUtil::append() failed " ++ getErrnoMsg err ++ "\n"] }
  else f

def appendLoop (data : List Byte) : ℕ → ℕ → ℕ → FileUtil → Option (ℕ × FileUtil)
  | 0, _, _, _ => none
  | fuel + 1, k, written, f =>
    if written ≠ data.length then
      let remain := data.length - written
      let (n, f) := f.write (accepts k) (data.drop written)
      let f := if n ≠ remain then f.report getErrnoMsg else f
      appendLoop data fuel (k + 1) (written + n) f
    else some (written, f)

def append (fuel : ℕ) (f : FileUtil) (data : List Byte) : Option FileUtil :=
  (appendLoop getErrnoMsg accepts data fuel 0 0 f).map fun (written, f) =>
    { f with writtenBytes_ := f.writtenBytes_ + written }

end Append

/-! What the calls of one `append` accept, as a sequence of numbers. -/

def accepted (accepts : ℕ → ℕ) (k : ℕ) : ℕ := ∑ i ∈ Finset.range k, accepts i

def asked (accepts : ℕ → ℕ) (len k : ℕ) : ℕ := len - accepted accepts k

def Answers (accepts : ℕ → ℕ) (len : ℕ) : Prop := ∀ k, accepts k ≤ asked accepts len k

/-- From every call before the last byte is accepted, some call accepts a byte. -/
def Recovers (accepts : ℕ → ℕ) (len : ℕ) : Prop :=
  ∀ k, accepted accepts k < len → ∃ j, k ≤ j ∧ 0 < accepts j

section Calls
variable {accepts : ℕ → ℕ} {len : ℕ}

theorem accepted_succ (accepts : ℕ → ℕ) (k : ℕ) :
    accepted accepts (k + 1) = accepted accepts k + accepts k :=
  Finset.sum_range_succ accepts k

theorem accepted_mono (accepts : ℕ → ℕ) : Monotone (accepted accepts) :=
  monotone_nat_of_le_succ fun k => by
    rw [accepted_succ]
    exact Nat.le_add_right _ _

theorem accepted_le (h : Answers accepts len) (k : ℕ) : accepted accepts k ≤ len := by
  induction k with
  | zero => exact Nat.zero_le _
  | succ k ih =>
    have part := h k
    rw [accepted_succ]
    unfold asked at part
    omega

theorem Recovers.reach (h : Recovers accepts len) (n : ℕ) (hn : n ≤ len) :
    ∃ k, n ≤ accepted accepts k := by
  induction n with
  | zero => exact ⟨0, Nat.zero_le _⟩
  | succ n ih =>
    obtain ⟨k, hk⟩ := ih (by omega)
    by_cases more : n < accepted accepts k
    · exact ⟨k, more⟩
    · obtain ⟨j, after, gain⟩ := h k (by omega)
      refine ⟨j + 1, ?_⟩
      have kept := accepted_mono accepts after
      rw [accepted_succ]
      omega

/-- All bytes are accepted in the end exactly when the calls recover. -/
theorem complete_iff (h : Answers accepts len) :
    (∃ k, accepted accepts k = len) ↔ Recovers accepts len := by
  constructor
  · rintro ⟨K, all⟩ k below
    by_contra stuck
    have zero : ∀ j, k ≤ j → accepts j = 0 := fun j hj =>
      Nat.eq_zero_of_not_pos fun gain => stuck ⟨j, hj, gain⟩
    have flat : ∀ m, accepted accepts (k + m) = accepted accepts k := by
      intro m
      induction m with
      | zero => rfl
      | succ m ih =>
        rw [← Nat.add_assoc, accepted_succ, zero (k + m) (Nat.le_add_right _ _), ih, Nat.add_zero]
    have later := accepted_mono accepts (Nat.le_add_left K k)
    rw [flat K, all] at later
    omega
  · intro recovers
    obtain ⟨k, hk⟩ := recovers.reach len le_rfl
    exact ⟨k, le_antisymm (accepted_le h k) hk⟩

end Calls

section Loop
variable {getErrnoMsg : ℤ → String} {accepts : ℕ → ℕ} {data : List Byte}

@[simp] theorem report_fp (f : FileUtil) : (f.report getErrnoMsg).fp_ = f.fp_ := by
  simp only [report]
  split <;> rfl

@[simp] theorem report_writtenBytes (f : FileUtil) :
    (f.report getErrnoMsg).writtenBytes_ = f.writtenBytes_ := by
  simp only [report]
  split <;> rfl

variable (getErrnoMsg) in
theorem appendLoop_turn (fuel k : ℕ) (f : FileUtil) (h : accepted accepts k ≠ data.length) :
    ∃ g, appendLoop getErrnoMsg accepts data (fuel + 1) k (accepted accepts k) f =
        appendLoop getErrnoMsg accepts data fuel (k + 1) (accepted accepts (k + 1)) g ∧
      g.fp_.bytes = f.fp_.bytes ++ (data.drop (accepted accepts k)).take (accepts k) ∧
      g.writtenBytes_ = f.writtenBytes_ := by
  rw [appendLoop, if_pos h, accepted_succ]
  refine ⟨_, rfl, ?_, ?_⟩
  · split <;> simp [Stream.fwrite_unlocked]
  · split <;> simp

variable (getErrnoMsg) in
theorem appendLoop_done (fuel k : ℕ) (f : FileUtil) (h : accepted accepts k = data.length) :
    appendLoop getErrnoMsg accepts data (fuel + 1) k (accepted accepts k) f =
      some (data.length, f) := by
  rw [appendLoop, if_neg (not_not.mpr h), h]

variable (getErrnoMsg) in
theorem appendLoop_ends (m k : ℕ) (f : FileUtil)
    (h : accepted accepts (k + m) = data.length) :
    (appendLoop getErrnoMsg accepts data (m + 1) k (accepted accepts k) f).isSome := by
  induction m generalizing k f with
  | zero => rw [appendLoop_done getErrnoMsg 0 k f h]; rfl
  | succ m ih =>
    by_cases all : accepted accepts k = data.length
    · rw [appendLoop_done getErrnoMsg _ k f all]
      rfl
    · obtain ⟨g, turn, -, -⟩ := appendLoop_turn getErrnoMsg (m + 1) k f all
      rw [turn]
      apply ih
      rw [Nat.add_right_comm, Nat.add_assoc]
      exact h

theorem appendLoop_result {fuel k : ℕ} {f g : FileUtil} {written : ℕ}
    (h : appendLoop getErrnoMsg accepts data fuel k (accepted accepts k) f = some (written, g)) :
    written = data.length ∧ g.writtenBytes_ = f.writtenBytes_ ∧
      (∃ K, accepted accepts K = data.length) ∧
      g.fp_.bytes = f.fp_.bytes ++ data.drop (accepted accepts k) := by
  induction fuel generalizing k f with
  | zero => cases h
  | succ fuel ih =>
    by_cases all : accepted accepts k = data.length
    · rw [appendLoop_done getErrnoMsg fuel k f all] at h
      cases h
      refine ⟨rfl, rfl, ⟨k, all⟩, ?_⟩
      rw [all, List.drop_length, List.append_nil]
    · obtain ⟨f', turn, bytes, count⟩ := appendLoop_turn getErrnoMsg fuel k f all
      rw [turn] at h
      obtain ⟨size, same, complete, rest⟩ := ih h
      refine ⟨size, same.trans count, complete, ?_⟩
      rw [rest, bytes, List.append_assoc, accepted_succ, ← List.drop_drop, List.take_append_drop]

end Loop

/-- `append` comes to its end with a prefix of the data written, the whole of it when
every call accepts all it is asked to write, and `writtenBytes_` grown by its length. -/
def Exact (getErrnoMsg : ℤ → String) (accepts : ℕ → ℕ) (f : FileUtil) (data : List Byte) : Prop :=
  ∃ fuel g n, f.append getErrnoMsg accepts fuel data = some g ∧ n ≤ data.length ∧
    g.fp_.bytes = f.fp_.bytes ++ data.take n ∧
    ((∀ k, accepts k = asked accepts data.length k) → n = data.length) ∧
    g.writtenBytes_ = f.writtenBytes_ + n

section Accounting
variable {getErrnoMsg : ℤ → String} {accepts : ℕ → ℕ} {data : List Byte}

theorem append_result {fuel : ℕ} {f g : FileUtil}
    (h : f.append getErrnoMsg accepts fuel data = some g) :
    (∃ k, accepted accepts k = data.length) ∧ g.fp_.bytes = f.fp_.bytes ++ data ∧
      g.writtenBytes_ = f.writtenBytes_ + data.length := by
  obtain ⟨⟨written, f'⟩, loop, rfl⟩ := Option.map_eq_some_iff.mp h
  obtain ⟨rfl, count, complete, bytes⟩ := appendLoop_result (k := 0) loop
  refine ⟨complete, bytes, ?_⟩
  rw [← count]

variable (getErrnoMsg) in
theorem append_ends (f : FileUtil) (h : ∃ k, accepted accepts k = data.length) :
    ∃ fuel g, f.append getErrnoMsg accepts fuel data = some g := by
  obtain ⟨k, all⟩ := h
  have ends := appendLoop_ends getErrnoMsg k 0 f (by rwa [Nat.zero_add])
  obtain ⟨⟨written, g⟩, loop⟩ := Option.isSome_iff_exists.mp ends
  exact ⟨k + 1, _, Option.map_eq_some_iff.mpr ⟨_, loop, rfl⟩⟩

/-- `append` is exact unless, with bytes left to write, no call accepts any more. -/
theorem append_exact (getErrnoMsg : ℤ → String) (accepts : ℕ → ℕ) (f : FileUtil)
    (data : List Byte) (answers : Answers accepts data.length) :
    Exact getErrnoMsg accepts f data ↔ Recovers accepts data.length := by
  rw [← complete_iff answers]
  constructor
  · rintro ⟨fuel, g, n, h, -⟩
    exact (append_result h).1
  · intro complete
    obtain ⟨fuel, g, h⟩ := append_ends getErrnoMsg f complete
    obtain ⟨-, bytes, count⟩ := append_result h
    refine ⟨fuel, g, data.length, h, le_rfl, ?_, fun _ => rfl, count⟩
    rw [bytes, List.take_length]

theorem append_exact_short :
    Exact (fun _ => "Operation not permitted") (fun k => [1, 0, 2].getD k 0) (construct [])
      [104, 105, 10] ↔ Recovers (fun k => [1, 0, 2].getD k 0) 3 := by
  refine append_exact _ _ (construct []) [104, 105, 10] ?_
  rintro (_ | _ | _ | k)
  · decide
  · decide
  · decide
  · exact Nat.zero_le _

/-- With a stream whose `fwrite_unlocked` always accepts nothing the loop goes on for ever. -/
theorem append_full_disk :
    ¬Exact (fun _ => "Operation not permitted") (fun _ => 0) (construct []) [10] := by
  rintro ⟨fuel, g, -, h, -⟩
  obtain ⟨k, all⟩ := (append_result h).1
  simp [accepted] at all

variable (getErrnoMsg) in
theorem append_full (fuel : ℕ) (f : FileUtil) (full : accepts 0 = data.length) :
    ∃ g, f.append getErrnoMsg accepts (fuel + 2) data = some g ∧
      g.fp_.bytes = f.fp_.bytes ++ data ∧ g.writtenBytes_ = f.writtenBytes_ + data.length := by
  have loop : (appendLoop getErrnoMsg accepts data (fuel + 2) 0 0 f).isSome := by
    by_cases empty : accepted accepts 0 = data.length
    · exact Option.isSome_iff_exists.mpr ⟨_, appendLoop_done getErrnoMsg (fuel + 1) 0 f empty⟩
    · obtain ⟨g, turn, -, -⟩ :=
        appendLoop_turn getErrnoMsg (fuel + 1) 0 f empty
      refine Option.isSome_iff_exists.mpr ⟨_, turn.trans (appendLoop_done getErrnoMsg fuel 1 g ?_)⟩
      rw [accepted_succ, full]
      exact Nat.zero_add _
  obtain ⟨⟨written, g⟩, loop⟩ := Option.isSome_iff_exists.mp loop
  have h : f.append getErrnoMsg accepts (fuel + 2) data = some _ :=
    Option.map_eq_some_iff.mpr ⟨_, loop, rfl⟩
  exact ⟨_, h, (append_result h).2⟩

end Accounting

end FileUtil
end TinyNetwork
