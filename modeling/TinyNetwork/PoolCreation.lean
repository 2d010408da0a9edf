import TinyNetwork.SmallAllocation

/-! `createPool`, for any answer of `posix_memalign` and any leftover content of the block it
returns. The test of the result is the wrong way round: a pool is laid out only where no
block was returned. The assignments themselves leave `quote_` and `next_` of the first
block as they find them, so over a block of recycled memory they do not make a pool. -/
namespace TinyNetwork.PoolCreation
open MachineWord LinkedList MemoryPool SmallAllocation

structure Created (s : MemoryPool) : Prop where
  largeList : s.pool.largeList_ = 0
  head : s.pool.head_ = s.pool_ + Pool.size
  current : s.pool.current_ = s.pool.head_
  last : (s.small s.pool.head_).last_ = s.pool.head_ + SmallNode.size
  ends : (s.small s.pool.head_).end_ = s.pool_ + PAGE_SIZE
  quote : (s.small s.pool.head_).quote_ = 0
  failed : (s.small s.pool.head_).failed_ = 0
  next : (s.small s.pool.head_).next_ = 0

/-- What `createPool` is for: it reports the outcome of the allocation, with a pool where it
succeeded and nothing written where it reports a failure. -/
def Establishes (s : MemoryPool) (os : PoolMemalign) : Prop :=
  ∃ created s', s.createPool os = some (created, s') ∧ (created = true ↔ os.ret = 0) ∧
    (created = true → Created s') ∧
      (created = false → s'.pool = (s.memalignPool os).pool ∧
        s'.small = (s.memalignPool os).small)

/-- Whatever `posix_memalign` answers, the report is the opposite, or the call crashes. -/
theorem createPool_inverted (s : MemoryPool) (os : PoolMemalign) : ¬Establishes s os := by
  rintro ⟨created, s', h, reports, -⟩
  simp only [createPool] at h
  split_ifs at h with success null
  · obtain ⟨rfl, -⟩ := Prod.mk.inj (Option.some.inj h)
    exact absurd (reports.mpr success) Bool.false_ne_true
  · obtain ⟨rfl, -⟩ := Prod.mk.inj (Option.some.inj h)
    exact success (reports.mp rfl)

/-- A zeroed page at 16, and `createPool` reports a failure. -/
theorem createPool_refuses_page :
    ¬Establishes ⟨0, ⟨0, 0, 0⟩, fun _ => ⟨0, 0, 0, 0, 0⟩, fun _ => ⟨0, 0, 0⟩, fun _ => 0, [], []⟩
      ⟨0, 16, ⟨0, 0, 0⟩, ⟨0, 0, 0, 0, 0⟩⟩ := by
  rintro ⟨created, s', h, reports, -⟩
  obtain ⟨rfl, -⟩ := Prod.mk.inj (Option.some.inj h)
  exact absurd (reports.mpr rfl) Bool.false_ne_true

theorem layOut_header (s : MemoryPool) :
    s.layOut.small s.layOut.pool.head_ = { s.small (sizeAdd s.pool_ Pool.size) with
      last_ := sizeAdd (sizeAdd s.pool_ Pool.size) SmallNode.size
      end_ := sizeAdd s.pool_ PAGE_SIZE
      failed_ := 0 } :=
  Function.update_self _ _ _

/-- The assignments make a pool of the block exactly when it comes with the two fields zero
that they do not set. -/
theorem layOut_created {s : MemoryPool} {os : PoolMemalign} (success : os.ret = 0)
    (bound : os.memptr + PAGE_SIZE < 2 ^ 64) :
    Created (s.memalignPool os).layOut ↔ os.head.quote_ = 0 ∧ os.head.next_ = 0 := by
  have taken : s.memalignPool os = { s.setSmall (sizeAdd os.memptr Pool.size) os.head with
      pool_ := os.memptr
      pool := os.pool
      live := (os.memptr, PAGE_SIZE) :: s.live } := if_pos success
  have found : (s.memalignPool os).small (sizeAdd (s.memalignPool os).pool_ Pool.size) =
      os.head := by
    rw [taken]
    exact Function.update_self _ _ _
  have page : (s.memalignPool os).pool_ = os.memptr := by rw [taken]
  have header := layOut_header (s.memalignPool os)
  unfold PAGE_SIZE at bound
  have head : sizeAdd os.memptr Pool.size = os.memptr + Pool.size :=
    sizeAdd_of_lt (by unfold Pool.size; omega)
  have last : sizeAdd (os.memptr + Pool.size) SmallNode.size =
      os.memptr + Pool.size + SmallNode.size :=
    sizeAdd_of_lt (by unfold Pool.size SmallNode.size; omega)
  have ends : sizeAdd os.memptr PAGE_SIZE = os.memptr + PAGE_SIZE := sizeAdd_of_lt bound
  have first : (s.memalignPool os).layOut.pool.head_ = os.memptr + Pool.size := by
    rw [← head, ← page]
    rfl
  rw [found, page, head, last, ends] at header
  constructor
  · intro h
    have quote := h.quote
    have next := h.next
    rw [header] at quote next
    exact ⟨quote, next⟩
  · rintro ⟨quote, next⟩
    refine ⟨rfl, ?_, rfl, ?_, ?_, ?_, ?_, ?_⟩
    · rw [first, ← page]
      rfl
    · rw [header, first]
    · rw [header, ← page]
      rfl
    · rw [header]
      exact quote
    · rw [header]
    · rw [header]
      exact next

theorem Created.wellFormed {s : MemoryPool} (h : Created s) (aligned : 16 ∣ s.pool_)
    (bound : s.pool_ + PAGE_SIZE < 2 ^ 64) (live : (s.pool_, PAGE_SIZE) ∈ s.live) :
    WellFormed s [s.pool.head_] := by
  have page := blockOf_head s
  refine ⟨⟨rfl, ?_, h.next⟩, h.head, ?_, fun a ha => ?_, List.pairwise_singleton _ _,
    fun a ha => ?_, [], h.largeList, by simp⟩
  · rw [h.head]
    unfold Pool.size
    omega
  · rw [h.current]
    exact List.mem_singleton.mpr rfl
  · rw [List.mem_singleton.mp ha]
    refine ⟨page ▸ aligned, page ▸ bound, page ▸ h.ends, h.last.ge, ?_⟩
    rw [h.last, h.ends, h.head]
    unfold SmallNode.size Pool.size PAGE_SIZE
    omega
  · rw [List.mem_singleton.mp ha, page]
    exact live

end TinyNetwork.PoolCreation
