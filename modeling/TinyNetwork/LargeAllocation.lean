import TinyNetwork.SmallAllocation

/-! Large allocations of a memory pool: a block of the OS and a record that names it, the
record one of the first five that are freed or a new one at the head of the list. The test
of the result of `posix_memalign` is the wrong way round, so a block that was returned is
lost, and where none was returned what the pointer held before is recorded and handed out.
What is left of the contract are refusals in which neither can be seen. -/
namespace TinyNetwork.LargeAllocation
open MachineWord LinkedList MemoryPool SmallAllocation

structure Recorded (s : MemoryPool) (nodes records : List ℕ) : Prop where
  wellFormed : WellFormed s nodes
  listed : Chain 0 (fun r => (s.large r).next_) s.pool.largeList_ records
  placed : ∀ r ∈ records, ∃ a ∈ nodes,
    a + SmallNode.size ≤ r ∧ r + LargeNode.size ≤ (s.small a).last_

/-- A successful answer is a block apart from those of the OS; a refusal leaves the pointer
unset. -/
def FreshBlock (s : MemoryPool) (size : ℕ) (os : Memalign) : Prop :=
  os.ret = 0 → 0 < os.memptr ∧ ∀ block ∈ s.live, Apart os.memptr size block.1 block.2

def Unrecorded (s : MemoryPool) (fuel : ℕ) (nested : Memalign) : Prop :=
  freedRecord s.large 5 s.pool.largeList_ = none ∧
    fit fuel s.small s.pool.current_ LargeNode.size = some none ∧ nested.ret ≠ 0

instance (s : MemoryPool) (fuel : ℕ) (nested : Memalign) :
    Decidable (Unrecorded s fuel nested) := by
  unfold Unrecorded
  infer_instance

structure Granted (s s' : MemoryPool) (records : List ℕ) (addr : ℕ) : Prop where
  list : ∃ records', Chain 0 (fun r => (s'.large r).next_) s'.pool.largeList_ records' ∧
    (records' = records ∨ ∃ r, records' = r :: records) ∧
      (records'.countP fun r => (s'.large r).address_ = addr) = 1
  others : ∀ r ∈ records, (s.large r).address_ ≠ 0 → s'.large r = s.large r

structure Refused (s s' : MemoryPool) (records : List ℕ) (os : Memalign) : Prop where
  list : s'.pool.largeList_ = s.pool.largeList_
  records : ∀ r ∈ records, s'.large r = s.large r
  blocks : ∀ block ∈ s'.live, block ∈ s.live
  frees : ∃ ps, s'.freed = s.freed ++ ps ∧ ∀ p ∈ ps, p = 0 ∨ os.ret = 0 ∧ p = os.memptr

def Reports (s : MemoryPool) (records : List ℕ) (fuel size : ℕ) (os nested : Memalign) : Prop :=
  ∃ p s', s.malloc fuel size os nested = some (p, s') ∧
    if os.ret = 0 ∧ ¬Unrecorded (s.posix_memalign size os) fuel nested then
      p = os.memptr ∧ Granted s s' records os.memptr
    else p = 0 ∧ Refused s s' records os

variable {s s' : MemoryPool} {nodes records : List ℕ} {fuel size : ℕ} {os nested : Memalign}

theorem freedRecord_mem {left node r : ℕ} {large : ℕ → LargeNode} {l : List ℕ}
    (chain : Chain 0 (fun r => (large r).next_) node l) (h : freedRecord large left node = some r) :
    r ∈ l ∧ (large r).address_ = 0 := by
  induction left generalizing node l with
  | zero => cases h
  | succ left ih =>
    simp only [freedRecord] at h
    split_ifs at h with ends free
    · cases h
      obtain ⟨rest, rfl⟩ := chain.exists_cons ends
      exact ⟨List.mem_cons_self, free⟩
    · obtain ⟨rest, rfl⟩ := chain.exists_cons ends
      exact (ih chain.2.2 h).imp_left (List.mem_cons_of_mem _)

theorem malloc_large (hsize : PAGE_SIZE - SmallNode.size < size) :
    s.malloc fuel size os nested = s.mallocLargeNode fuel size os nested := by
  rw [malloc, if_neg (Nat.ne_zero_of_lt hsize), if_pos hsize]

/-- A block the OS gave is lost. -/
theorem given_lost (fresh : FreshBlock s size os) (hsize : PAGE_SIZE - SmallNode.size < size)
    (success : os.ret = 0) : ¬Reports s records fuel size os nested := by
  obtain ⟨positive, apart⟩ := fresh success
  have lost : s.malloc fuel size os nested = some (0, s.posix_memalign size os) := by
    rw [malloc_large hsize, mallocLargeNode]
    exact if_pos success
  have taken : (os.memptr, size) ∈ (s.posix_memalign size os).live := by
    rw [posix_memalign, if_pos success]
    exact List.mem_cons_self
  rintro ⟨p, s', result, outcome⟩
  obtain ⟨rfl, rfl⟩ := Prod.mk.inj (Option.some.inj (lost.symm.trans result))
  split_ifs at outcome with granted
  · exact absurd outcome.1.symm (Nat.ne_of_gt positive)
  · have disjoint := apart _ (outcome.2.blocks _ taken)
    unfold Apart PAGE_SIZE SmallNode.size at *
    simp only at disjoint
    omega

/-- The refusals that go unnoticed: the unset pointer is null, and the freed record the scan
finds has the size already, or no record is found and none can be made. -/
def Unnoticed (s : MemoryPool) (fuel size : ℕ) (os nested : Memalign) : Prop :=
  os.ret ≠ 0 ∧ os.memptr = 0 ∧
    ((∃ r, freedRecord s.large 5 s.pool.largeList_ = some r ∧ (s.large r).size_ = size % 2 ^ 32) ∨
      Unrecorded s fuel nested)

section Refusal
variable (refuses : os.ret ≠ 0) (hsize : PAGE_SIZE - SmallNode.size < size)
include refuses hsize

theorem malloc_refused : s.malloc fuel size os nested =
    match freedRecord s.large 5 s.pool.largeList_ with
    | some r => some (os.memptr, s.setLarge r
        { s.large r with size_ := size % 2 ^ 32, address_ := os.memptr })
    | none => (s.mallocSmall fuel LargeNode.size nested).map fun (r, s) =>
        if r = 0 then (0, s.free os.memptr)
        else (os.memptr, { s.setLarge r ⟨os.memptr, size % 2 ^ 32, s.pool.largeList_⟩ with
          pool := { s.pool with largeList_ := r } }) := by
  have same : s.posix_memalign size os = s := if_neg refuses
  rw [malloc_large hsize, mallocLargeNode, same]
  exact if_neg refuses

omit hsize in
theorem reports_refused : Reports s records fuel size os nested ↔
    ∃ s', s.malloc fuel size os nested = some (0, s') ∧ Refused s s' records os := by
  constructor
  · rintro ⟨p, s', result, outcome⟩
    rw [if_neg fun given => refuses given.1] at outcome
    obtain ⟨rfl, refused⟩ := outcome
    exact ⟨s', result, refused⟩
  · rintro ⟨s', result, refused⟩
    refine ⟨0, s', result, ?_⟩
    rw [if_neg fun given => refuses given.1]
    exact ⟨rfl, refused⟩

theorem reused_reports {r : ℕ} (h : Recorded s nodes records)
    (found : freedRecord s.large 5 s.pool.largeList_ = some r) :
    Reports s records fuel size os nested ↔
      os.memptr = 0 ∧ (s.large r).size_ = size % 2 ^ 32 := by
  obtain ⟨mem, free⟩ := freedRecord_mem h.listed found
  rw [reports_refused refuses, malloc_refused refuses hsize, found]
  constructor
  · rintro ⟨s', result, refused⟩
    obtain ⟨null, rfl⟩ := Prod.mk.inj (Option.some.inj result)
    have record := refused.records r mem
    rw [setLarge_self] at record
    exact ⟨null, (congrArg LargeNode.size_ record).symm⟩
  · rintro ⟨null, same⟩
    rw [null]
    refine ⟨_, rfl, rfl, fun r' _ => ?_, fun _ => id, [], (List.append_nil _).symm, by simp⟩
    by_cases at_ : r' = r
    · rw [at_, setLarge_self, ← same, ← free]
    · exact setLarge_other _ _ at_

theorem unrecorded_reports (unrecorded : Unrecorded s fuel nested) :
    Reports s records fuel size os nested ↔ os.memptr = 0 := by
  obtain ⟨none, full, again⟩ := unrecorded
  have null : s.mallocSmall fuel LargeNode.size nested = some (0, s) := by
    rw [mallocSmall, full]
    exact if_pos again
  rw [reports_refused refuses, malloc_refused refuses hsize, none, null]
  constructor
  · rintro ⟨s', result, refused⟩
    obtain ⟨-, rfl⟩ := Prod.mk.inj (Option.some.inj result)
    obtain ⟨ps, freed, given⟩ := refused.frees
    have freed : [os.memptr] = ps := List.append_cancel_left freed
    exact (given os.memptr (freed ▸ List.mem_singleton.mpr rfl)).resolve_right
      fun given => refuses given.1
  · intro unset
    refine ⟨_, rfl, rfl, fun _ _ => rfl, fun block mem => (List.mem_filter.mp mem).1,
      [os.memptr], rfl, fun p hp => .inl ?_⟩
    exact (List.mem_singleton.mp hp).trans unset

theorem recorded_reports (h : Recorded s nodes records) (fresh : Fresh s nested)
    (lasts : nodes.length < fuel) (none : freedRecord s.large 5 s.pool.largeList_ = none)
    (made : ¬Unrecorded s fuel nested) : ¬Reports s records fuel size os nested := by
  have small : LargeNode.size ≤ PAGE_SIZE - SmallNode.size := by decide
  obtain ⟨⟨r, m⟩, result⟩ : ∃ result, s.mallocSmall fuel LargeNode.size nested = some result :=
    mallocSmall_total h.wellFormed fresh lasts
  rw [reports_refused refuses, malloc_refused refuses hsize, none, result]
  rintro ⟨s', outcome, refused⟩
  rcases mallocSmall_spec h.wellFormed fresh small result with
    ⟨again, full, -, -⟩ | ⟨nodes', a, carved⟩
  · exact made ⟨none, full, again⟩
  · have nonnull : r ≠ 0 := by
      have behind := carved.behind
      unfold SmallNode.size at behind
      omega
    simp only [Option.map_some, if_neg nonnull] at outcome
    obtain ⟨-, rfl⟩ := Prod.mk.inj (Option.some.inj outcome)
    have head : r = s.pool.largeList_ := refused.list
    cases records with
    | nil => exact nonnull (head.trans h.listed)
    | cons first rest =>
      obtain ⟨b, hb, behind, below⟩ := h.placed first List.mem_cons_self
      have apart := carved.apart (r := (first, LargeNode.size)) hb behind below
      rw [head, h.listed.1] at apart
      unfold Apart LargeNode.size at apart
      omega

end Refusal

/-- A large allocation keeps its contract exactly in the refusals that go unnoticed. -/
theorem malloc_reports (h : Recorded s nodes records) (hsize : PAGE_SIZE - SmallNode.size < size)
    (fresh : FreshBlock s size os) (again : Fresh (s.posix_memalign size os) nested)
    (lasts : nodes.length < fuel) :
    Reports s records fuel size os nested ↔ Unnoticed s fuel size os nested := by
  by_cases success : os.ret = 0
  · exact iff_of_false (given_lost fresh hsize success) fun unnoticed => unnoticed.1 success
  · rw [posix_memalign, if_neg success] at again
    unfold Unnoticed
    rw [and_iff_right success]
    cases found : freedRecord s.large 5 s.pool.largeList_ with
    | some r =>
      rw [reused_reports success hsize h found]
      have scanned : ¬Unrecorded s fuel nested := fun unrecorded => by
        rw [unrecorded.1] at found
        cases found
      simp [scanned]
    | none =>
      by_cases unrecorded : Unrecorded s fuel nested
      · rw [unrecorded_reports success hsize unrecorded]
        simp [unrecorded]
      · refine iff_of_false (recorded_reports success hsize h again lasts found unrecorded) ?_
        simp [unrecorded]

def given : Memalign := ⟨0, 8192, ⟨0, 0, 0, 0, 0⟩⟩

def recorded : MemoryPool where
  pool_ := 16
  pool := ⟨112, 40, 40⟩
  small := fun a => if a = 40 then ⟨4112, 144, 2, 0, 0⟩ else ⟨0, 0, 0, 0, 0⟩
  large := fun r => if r = 112 then ⟨0, 0, 80⟩ else ⟨20480, 6000, 0⟩
  bytes := fun _ => 0
  live := [(16, 4096), (20480, 6000)]
  freed := []

theorem recorded_listed : Recorded recorded [40] [112, 80] := by
  refine ⟨⟨⟨rfl, by decide, rfl⟩, rfl, by decide, ?_, by simp, ?_,
    [112, 80], ⟨rfl, by decide, rfl, by decide, rfl⟩, ?_⟩,
    ⟨rfl, by decide, rfl, by decide, rfl⟩, by decide⟩
  · intro a ha
    rw [List.mem_singleton.mp ha]
    exact ⟨by decide, by decide, rfl, by decide, by decide⟩
  · intro a ha
    rw [List.mem_singleton.mp ha]
    exact List.mem_cons_self
  · intro r hr
    simp only [List.mem_cons, List.not_mem_nil, or_false] at hr
    rcases hr with rfl | rfl
    · exact ⟨by decide, .inl rfl⟩
    · exact ⟨by decide, .inr ⟨6000, by decide, by decide⟩⟩

theorem malloc_reports_given : Recorded recorded [40] [112, 80] ∧
    PAGE_SIZE - SmallNode.size < 5120 ∧
    (Reports recorded [112, 80] 9 5120 given refusal ↔
      Unnoticed recorded 9 5120 given refusal) := by
  have fresh : FreshBlock recorded 5120 given := fun _ => by decide
  have again : Fresh (recorded.posix_memalign 5120 given) refusal := by
    unfold Fresh
    decide
  exact ⟨recorded_listed, by decide,
    malloc_reports recorded_listed (by decide) fresh again (by decide)⟩

/-- The block is there, a record could be made, and null is returned. -/
theorem malloc_loses_block : Recorded sample.memory [40] [] ∧
    FreshBlock sample.memory 5120 given ∧ ¬Reports sample.memory [] 9 5120 given refusal := by
  refine ⟨⟨sample_wellFormed, rfl, by simp⟩, fun _ => by decide, ?_⟩
  have null : (sample.memory.malloc 9 5120 given refusal).map Prod.fst = some 0 := by
    decide +kernel
  rintro ⟨p, s', result, outcome⟩
  rw [if_pos (by decide +kernel)] at outcome
  rw [result] at null
  have address : (0 : ℕ) = 8192 := (Option.some.inj null).symm.trans outcome.1
  exact absurd address (by decide)

end TinyNetwork.LargeAllocation
