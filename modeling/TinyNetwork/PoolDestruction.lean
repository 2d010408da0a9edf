import TinyNetwork.LargeAllocation

/-! What a memory pool gives back to the OS. `freeMemory` of a large block, `resetPool` and
`destroyPool` pass pointers to `free`, and the records they walk lie in the blocks they free.
The operations are taken here with every access checked: reading or writing a record that is
not in a live block, or freeing what is no live block, is a fault, `none`. An operation that
returns did what it does in the pool without the checks, and none of them faults: each block
the pool held is freed exactly once. -/
namespace TinyNetwork.PoolDestruction
open MachineWord Transition LinkedList MemoryPool SmallAllocation

section Checked

/-- The `n` bytes from `p` lie in a live block of the OS. -/
def Held (s : MemoryPool) (p n : ℕ) : Prop :=
  ∃ block ∈ s.live, block.1 ≤ p ∧ p + n ≤ block.1 + block.2

instance (s : MemoryPool) (p n : ℕ) : Decidable (Held s p n) := by
  unfold Held
  infer_instance

def readPool (s : MemoryPool) : Option Pool :=
  if Held s s.pool_ Pool.size then some s.pool else none

def readSmall (s : MemoryPool) (a : ℕ) : Option SmallNode :=
  if Held s a SmallNode.size then some (s.small a) else none

def readLarge (s : MemoryPool) (r : ℕ) : Option LargeNode :=
  if Held s r LargeNode.size then some (s.large r) else none

def writeLarge (s : MemoryPool) (r : ℕ) (node : LargeNode) : Option MemoryPool :=
  if Held s r LargeNode.size then some (s.setLarge r node) else none

/-- `free` takes null, or the start of a live block. -/
def freeBlock (s : MemoryPool) (p : ℕ) : Option MemoryPool :=
  if p = 0 ∨ p ∈ s.live.map Prod.fst then some (s.free p) else none

def findLarge : ℕ → MemoryPool → ℕ → ℕ → Option (Option ℕ)
  | 0, _, _, _ => none
  | fuel + 1, s, large, p =>
    if large = 0 then some none
    else do
      let record ← readLarge s large
      if record.address_ = p then some (some large) else findLarge fuel s record.next_ p

def findSmall : ℕ → MemoryPool → ℕ → ℕ → Option (Option ℕ)
  | 0, _, _, _ => none
  | fuel + 1, s, small, p =>
    if small = 0 then some none
    else do
      let node ← readSmall s small
      if small ≤ p ∧ p ≤ node.end_ then some (some small) else findSmall fuel s node.next_ p

def freeMemory (s : MemoryPool) (fuel p : ℕ) : Option MemoryPool := do
  let pool ← readPool s
  match ← findLarge fuel s pool.largeList_ p with
  | some large =>
    let record ← readLarge s large
    let s ← freeBlock s record.address_
    writeLarge s large { record with size_ := 0, address_ := 0 }
  | none =>
    match ← findSmall fuel s pool.head_ p with
    | some small => some (s.release small)
    | none => some s

/-- The first loop of `resetPool`: the link is read after the block has been freed. -/
def freeLarge : ℕ → MemoryPool → ℕ → Option MemoryPool
  | 0, _, _ => none
  | fuel + 1, s, large =>
    if large = 0 then some s
    else do
      let record ← readLarge s large
      let s ← (if record.address_ ≠ 0 then freeBlock s record.address_ else some s)
      let record ← readLarge s large
      freeLarge fuel s record.next_

def rewind : ℕ → MemoryPool → ℕ → Option MemoryPool
  | 0, _, _ => none
  | fuel + 1, s, small =>
    if small = 0 then some s
    else do
      let node ← readSmall s small
      rewind fuel (s.setSmall small
        { node with last_ := sizeAdd small SmallNode.size, failed_ := 0, quote_ := 0 }) node.next_

def resetPool (s : MemoryPool) (fuel : ℕ) : Option MemoryPool := do
  let pool ← readPool s
  let s ← freeLarge fuel s pool.largeList_
  let pool ← readPool s
  rewind fuel { s with pool := { pool with largeList_ := 0, current_ := pool.head_ } } pool.head_

def destroyLarge : ℕ → MemoryPool → ℕ → Option MemoryPool
  | 0, _, _ => none
  | fuel + 1, s, large =>
    if large = 0 then some s
    else do
      let record ← readLarge s large
      let s ← freeBlock s record.address_
      let s ← writeLarge s large { record with address_ := 0 }
      let record ← readLarge s large
      destroyLarge fuel s record.next_

/-- The second loop of `destroyPool`: the link is read before the block is freed. -/
def destroySmall : ℕ → MemoryPool → ℕ → Option MemoryPool
  | 0, _, _ => none
  | fuel + 1, s, cur =>
    if cur = 0 then some s
    else do
      let node ← readSmall s cur
      let s ← freeBlock s cur
      destroySmall fuel s node.next_

def destroyPool (s : MemoryPool) (fuel : ℕ) : Option MemoryPool := do
  let pool ← readPool s
  let s ← destroyLarge fuel s pool.largeList_
  let pool ← readPool s
  let head ← readSmall s pool.head_
  let s ← destroySmall fuel s head.next_
  freeBlock s s.pool_

end Checked

variable {s s' : MemoryPool} {fuel p : ℕ}

section Refinement

theorem findLarge_refines {large : ℕ} {found : Option ℕ}
    (h : findLarge fuel s large p = some found) :
    MemoryPool.findLarge fuel s.large large p = some found := by
  induction fuel generalizing large with
  | zero => cases h
  | succ fuel ih =>
    rw [findLarge] at h
    rw [MemoryPool.findLarge]
    by_cases ends : large = 0
    · rw [if_pos ends] at h ⊢
      exact h
    · rw [if_neg ends] at h ⊢
      have rest := guard_bind h
      split_ifs at rest ⊢
      · exact rest
      · exact ih rest

theorem findSmall_refines {small : ℕ} {found : Option ℕ}
    (h : findSmall fuel s small p = some found) :
    MemoryPool.findSmall fuel s.small small p = some found := by
  induction fuel generalizing small with
  | zero => cases h
  | succ fuel ih =>
    rw [findSmall] at h
    rw [MemoryPool.findSmall]
    by_cases ends : small = 0
    · rw [if_pos ends] at h ⊢
      exact h
    · rw [if_neg ends] at h ⊢
      have rest := guard_bind h
      split_ifs at rest ⊢
      · exact rest
      · exact ih rest

theorem freeMemory_refines (h : freeMemory s fuel p = some s') :
    s.freeMemory fuel p = some s' := by
  have rest := guard_bind h
  obtain ⟨found, scan, rest⟩ := Option.bind_eq_some_iff.mp rest
  rw [MemoryPool.freeMemory, findLarge_refines scan, Option.bind_some]
  cases found with
  | some large =>
    have rest := guard_bind rest
    have written := guard_bind rest
    obtain ⟨-, rfl⟩ := guard_met written
    rfl
  | none =>
    obtain ⟨found, scan, rest⟩ := Option.bind_eq_some_iff.mp rest
    simp only [findSmall_refines scan, Option.map_some]
    cases found <;> exact rest

theorem freeLarge_refines {large : ℕ} (h : freeLarge fuel s large = some s') :
    MemoryPool.freeLarge fuel s large = some s' := by
  induction fuel generalizing s large with
  | zero => cases h
  | succ fuel ih =>
    rw [freeLarge] at h
    simp only [MemoryPool.freeLarge]
    by_cases ends : large = 0
    · rw [if_pos ends] at h ⊢
      exact h
    · rw [if_neg ends] at h ⊢
      have rest := guard_bind h
      obtain ⟨t, freed, rest⟩ := Option.bind_eq_some_iff.mp rest
      have rest := guard_bind rest
      split_ifs at freed ⊢ with named
      · obtain ⟨-, rfl⟩ := guard_met freed
        exact ih rest
      · cases freed
        exact ih rest

theorem rewind_refines {small : ℕ} (h : rewind fuel s small = some s') :
    ∃ headers, MemoryPool.rewind fuel s.small small = some headers ∧
      s' = { s with small := headers } := by
  induction fuel generalizing s small with
  | zero => cases h
  | succ fuel ih =>
    rw [rewind] at h
    rw [MemoryPool.rewind]
    by_cases ends : small = 0
    · rw [if_pos ends] at h ⊢
      cases h
      exact ⟨_, rfl, rfl⟩
    · rw [if_neg ends] at h ⊢
      have rest := guard_bind h
      exact ih rest

theorem resetPool_refines (h : resetPool s fuel = some s') : s.resetPool fuel = some s' := by
  have rest := guard_bind h
  obtain ⟨t, freed, rest⟩ := Option.bind_eq_some_iff.mp rest
  have rest := guard_bind rest
  obtain ⟨headers, rewound, rfl⟩ := rewind_refines rest
  rw [MemoryPool.resetPool, freeLarge_refines freed, Option.bind_some, rewound]
  rfl

end Refinement

section Walks

def passAll (s : MemoryPool) (ps : List ℕ) : MemoryPool :=
  { s with live := s.live.filter fun block => block.1 ∉ ps, freed := s.freed ++ ps }

theorem passAll_nil : passAll s [] = s := by simp [passAll]

theorem passAll_free (ps : List ℕ) : passAll (s.free p) ps = passAll s (p :: ps) := by
  simp [passAll, MemoryPool.free, List.filter_filter, Bool.and_comm]

def addresses (s : MemoryPool) (records : List ℕ) : List ℕ :=
  records.map fun r => (s.large r).address_

def named (ps : List ℕ) : List ℕ := ps.filter fun p => p ≠ 0

theorem mem_named {ps : List ℕ} : p ∈ named ps ↔ p ∈ ps ∧ p ≠ 0 := by simp [named]

theorem named_cons (ps : List ℕ) : named (p :: ps) = if p ≠ 0 then p :: named ps else named ps := by
  rw [named, List.filter_cons]
  simp only [decide_eq_true_eq, named]

theorem named_append (ps qs : List ℕ) : named (ps ++ qs) = named ps ++ named qs :=
  List.filter_append ..

def Sheltered (s : MemoryPool) (p n : ℕ) (ps : List ℕ) : Prop :=
  ∃ block ∈ s.live, block.1 ≤ p ∧ p + n ≤ block.1 + block.2 ∧ block.1 ∉ ps

theorem Sheltered.held {n : ℕ} {ps : List ℕ} (h : Sheltered s p n ps) : Held s p n := by
  obtain ⟨block, live, starts, ends, -⟩ := h
  exact ⟨block, live, starts, ends⟩

theorem live_free {block : ℕ × ℕ} (mem : block ∈ s.live) (other : block.1 ≠ p) :
    block ∈ (s.free p).live :=
  List.mem_filter.mpr ⟨mem, by simpa using other⟩

theorem Sheltered.free {q n : ℕ} {ps : List ℕ} (h : Sheltered s q n (p :: ps)) :
    Sheltered (s.free p) q n ps := by
  obtain ⟨block, live, starts, ends, outside⟩ := h
  obtain ⟨other, outside⟩ := List.ne_and_not_mem_of_not_mem_cons outside
  exact ⟨block, live_free live other, starts, ends, outside⟩

/-- The records from `node` on. Each lies in a block that outlives the blocks the list names,
and these are distinct and live. -/
structure Listed (s : MemoryPool) (node : ℕ) (records : List ℕ) : Prop where
  chain : Chain 0 (fun r => (s.large r).next_) node records
  distinct : (named (addresses s records)).Nodup
  live : ∀ p ∈ named (addresses s records), p ∈ s.live.map Prod.fst
  sheltered : ∀ r ∈ records, Sheltered s r LargeNode.size (addresses s records)

variable {node r : ℕ} {records rest : List ℕ}

theorem Listed.tail {t : MemoryPool} (h : Listed s r (r :: rest))
    (live : t.live = s.live ∨ t.live = (s.free (s.large r).address_).live)
    (same : ∀ q ∈ rest, t.large q = s.large q) : Listed t (s.large r).next_ rest := by
  have kept : addresses t rest = addresses s rest :=
    List.map_congr_left fun q hq => by rw [same q hq]
  have split : named (addresses s (r :: rest)) =
      named [(s.large r).address_] ++ named (addresses s rest) :=
    named_append [(s.large r).address_] (addresses s rest)
  have distinct := h.distinct
  rw [split] at distinct
  obtain ⟨-, distinct, apart⟩ := List.nodup_append.mp distinct
  -- a block other than the one the first record names stays
  have stays : ∀ block ∈ s.live, block.1 ≠ (s.large r).address_ → block ∈ t.live := by
    intro block mem other
    rcases live with same | same
    · rwa [same]
    · rw [same]
      exact live_free mem other
  refine ⟨h.chain.2.2.congr fun q hq => by rw [same q hq], kept ▸ distinct, fun p hp => ?_,
    fun q hq => ?_⟩
  · rw [kept] at hp
    have mem : p ∈ named (addresses s (r :: rest)) := split ▸ List.mem_append_right _ hp
    obtain ⟨block, there, rfl⟩ := List.mem_map.mp (h.live p mem)
    refine List.mem_map_of_mem (stays block there fun first => ?_)
    have also : block.1 ∈ named [(s.large r).address_] :=
      mem_named.mpr ⟨List.mem_singleton.mpr first, (mem_named.mp hp).2⟩
    exact apart _ also _ hp rfl
  · obtain ⟨block, there, starts, ends, outside⟩ := h.sheltered q (List.mem_cons_of_mem r hq)
    obtain ⟨other, outside⟩ := List.ne_and_not_mem_of_not_mem_cons outside
    exact ⟨block, stays block there other, starts, ends, kept ▸ outside⟩

theorem Listed.first (h : Listed s r (r :: rest)) :
    freeBlock s (s.large r).address_ = some (s.free (s.large r).address_) := by
  exact if_pos (or_iff_not_imp_left.mpr fun nonnull =>
    h.live _ (mem_named.mpr ⟨List.mem_cons_self, nonnull⟩))

theorem readLarge_held {ps : List ℕ} (h : Sheltered s r LargeNode.size ps) :
    readLarge s r = some (s.large r) := if_pos h.held

theorem findLarge_returns (h : Listed s node records) (lasts : records.length < fuel) :
    ∃ found, findLarge fuel s node p = some found ∧
      ∀ r ∈ found, r ∈ records ∧ (s.large r).address_ = p := by
  induction records, fuel, lasts using fuel_induction generalizing node with
  | nil fuel =>
    exact ⟨none, if_pos (chain_nil.mp h.chain), by simp⟩
  | cons r rest fuel lasts ih =>
    obtain ⟨rfl, nonnull, -⟩ := h.chain
    rw [findLarge, if_neg nonnull, readLarge_held (h.sheltered node List.mem_cons_self)]
    simp only [Option.bind_eq_bind, Option.bind_some]
    split_ifs with same
    · exact ⟨some node, rfl, by simp [same]⟩
    · have tail : Listed s (s.large node).next_ rest := h.tail (.inl rfl) fun _ _ => rfl
      obtain ⟨found, scan, one⟩ := ih tail
      exact ⟨found, scan, fun r hr => (one r hr).imp_left (List.mem_cons_of_mem node)⟩

theorem freeLarge_returns (h : Listed s node records) (lasts : records.length < fuel) :
    freeLarge fuel s node = some (passAll s (named (addresses s records))) := by
  induction records, fuel, lasts using fuel_induction generalizing s node with
  | nil fuel =>
    rw [freeLarge, if_pos (chain_nil.mp h.chain)]
    exact congrArg some passAll_nil.symm
  | cons r rest fuel lasts ih =>
    obtain ⟨rfl, nonnull, -⟩ := h.chain
    have split : addresses s (node :: rest) = (s.large node).address_ :: addresses s rest := rfl
    simp only [freeLarge, if_neg nonnull, readLarge_held (h.sheltered node List.mem_cons_self),
      Option.bind_eq_bind, Option.bind_some]
    rw [split, named_cons]
    have shelter := h.sheltered node List.mem_cons_self
    split_ifs with block
    · have tail : Listed (s.free (s.large node).address_) (s.large node).next_ rest :=
        h.tail (.inr rfl) fun _ _ => rfl
      rw [h.first, Option.bind_some, readLarge_held shelter.free, Option.bind_some]
      exact (ih tail).trans (congrArg some (passAll_free _))
    · rw [Option.bind_some, readLarge_held shelter, Option.bind_some]
      exact ih (h.tail (.inl rfl) fun _ _ => rfl)

theorem destroyLarge_returns (h : Listed s node records) (lasts : records.length < fuel) :
    ∃ large, destroyLarge fuel s node =
      some { passAll s (addresses s records) with large := large } := by
  induction records, fuel, lasts using fuel_induction generalizing s node with
  | nil fuel =>
    rw [destroyLarge, if_pos (chain_nil.mp h.chain)]
    exact ⟨s.large, congrArg some passAll_nil.symm⟩
  | cons r rest fuel lasts ih =>
    have once := h.chain.nodup
    obtain ⟨rfl, nonnull, -⟩ := h.chain
    have shelter := (h.sheltered node List.mem_cons_self).free
    obtain ⟨t, cleared⟩ : ∃ t, t = (s.free (s.large node).address_).setLarge node
        { s.large node with address_ := 0 } := ⟨_, rfl⟩
    have same : ∀ q ∈ rest, t.large q = s.large q := fun q hq => by
      rw [cleared]
      exact setLarge_other _ _ fun at_ => (List.nodup_cons.mp once).1 (at_ ▸ hq)
    have live : t.live = (s.free (s.large node).address_).live := by rw [cleared]; rfl
    have next : (t.large node).next_ = (s.large node).next_ := by rw [cleared, setLarge_self]
    have kept : addresses t rest = addresses s rest :=
      List.map_congr_left fun q hq => by rw [same q hq]
    have still : readLarge t node = some (t.large node) := by
      obtain ⟨block, mem, starts, ends, -⟩ := shelter
      exact if_pos ⟨block, live ▸ mem, starts, ends⟩
    obtain ⟨large, walked⟩ := ih (h.tail (.inr live) same)
    refine ⟨large, ?_⟩
    simp only [destroyLarge, if_neg nonnull, readLarge_held (h.sheltered node List.mem_cons_self),
      Option.bind_eq_bind, Option.bind_some, h.first, writeLarge, if_pos shelter.held]
    have passed : passAll (s.free (s.large node).address_) (addresses s rest) =
        passAll s (addresses s (node :: rest)) := passAll_free _
    rw [← cleared, still, Option.bind_some, next, walked, kept, cleared]
    exact congrArg (fun m : MemoryPool => some { m with large := large }) passed

variable {nodes : List ℕ}

theorem readSmall_held {a : ℕ} (h : Held s a SmallNode.size) :
    readSmall s a = some (s.small a) := if_pos h

theorem findSmall_returns (chain : Linked s.small node nodes)
    (held : ∀ a ∈ nodes, Held s a SmallNode.size) (lasts : nodes.length < fuel) :
    ∃ found, findSmall fuel s node p = some found := by
  induction nodes, fuel, lasts using fuel_induction generalizing node with
  | nil fuel =>
    exact ⟨none, if_pos (chain_nil.mp chain)⟩
  | cons a rest fuel lasts ih =>
    obtain ⟨rfl, nonnull, tail⟩ := chain
    rw [findSmall, if_neg nonnull, readSmall_held (held node List.mem_cons_self)]
    simp only [Option.bind_eq_bind, Option.bind_some]
    split_ifs
    · exact ⟨some node, rfl⟩
    · exact ih tail (fun a ha => held a (List.mem_cons_of_mem node ha))
       

theorem rewind_returns (chain : Linked s.small node nodes)
    (held : ∀ a ∈ nodes, Held s a SmallNode.size) (lasts : nodes.length < fuel) :
    ∃ headers, rewind fuel s node = some { s with small := headers } ∧
      ∀ a, (headers a).next_ = (s.small a).next_ := by
  induction nodes, fuel, lasts using fuel_induction generalizing s node with
  | nil fuel =>
    exact ⟨s.small, if_pos (chain_nil.mp chain), fun _ => rfl⟩
  | cons a rest fuel lasts ih =>
    obtain ⟨rfl, nonnull, tail⟩ := chain
    obtain ⟨t, rewound⟩ : ∃ t, t = s.setSmall node
        { s.small node with last_ := sizeAdd node SmallNode.size, failed_ := 0, quote_ := 0 } :=
      ⟨_, rfl⟩
    have links : ∀ a, (t.small a).next_ = (s.small a).next_ := fun a => by
      rw [rewound]
      exact update_field SmallNode.next_ (by rfl) a
    have live : t.live = s.live := by rw [rewound]; rfl
    have held' : ∀ a ∈ rest, Held t a SmallNode.size := fun a ha => by
      unfold Held
      rw [live]
      exact held a (List.mem_cons_of_mem node ha)
    obtain ⟨headers, walked, kept⟩ := ih (s := t) (tail.congr fun a _ => links a) held'
     
    refine ⟨headers, ?_, fun a => (kept a).trans (links a)⟩
    rw [rewind, if_neg nonnull, readSmall_held (held node List.mem_cons_self)]
    simp only [Option.bind_eq_bind, Option.bind_some]
    rw [← rewound, walked, rewound]
    rfl

theorem destroySmall_returns (chain : Linked s.small node nodes)
    (live : ∀ a ∈ nodes, (a, PAGE_SIZE) ∈ s.live) (lasts : nodes.length < fuel) :
    destroySmall fuel s node = some (passAll s nodes) := by
  induction nodes, fuel, lasts using fuel_induction generalizing s node with
  | nil fuel =>
    rw [destroySmall, if_pos (chain_nil.mp chain)]
    exact congrArg some passAll_nil.symm
  | cons a rest fuel lasts ih =>
    have once := chain.nodup
    obtain ⟨rfl, nonnull, tail⟩ := chain
    have mem := live node List.mem_cons_self
    have held : Held s node SmallNode.size := ⟨_, mem, Nat.le_refl _, by
      unfold SmallNode.size PAGE_SIZE
      omega⟩
    have passed : freeBlock s node = some (s.free node) :=
      if_pos (.inr (List.mem_map_of_mem mem))
    have later : ∀ a ∈ rest, (a, PAGE_SIZE) ∈ (s.free node).live := fun a ha =>
      live_free (live a (List.mem_cons_of_mem node ha)) fun at_ =>
        (List.nodup_cons.mp once).1 (at_ ▸ ha)
    rw [destroySmall, if_neg nonnull, readSmall_held held]
    simp only [Option.bind_eq_bind, Option.bind_some, passed]
    exact (ih (s := s.free node) tail later).trans
      (congrArg some (passAll_free _))

end Walks

section Ownership

def holdings (s : MemoryPool) (nodes records : List ℕ) : List ℕ :=
  nodes.map (blockOf s) ++ named (addresses s records)

/-- `nodes` are the headers and `records` the records in list order. The records lie in the
small blocks, and what the pool holds are distinct live blocks. -/
structure Owned (s : MemoryPool) (nodes records : List ℕ) : Prop where
  chain : Linked s.small s.pool.head_ nodes
  head : s.pool.head_ = s.pool_ + Pool.size
  nonnull : s.pool_ ≠ 0
  listed : Chain 0 (fun r => (s.large r).next_) s.pool.largeList_ records
  placed : ∀ r ∈ records, ∃ a ∈ nodes,
    a + SmallNode.size ≤ r ∧ r + LargeNode.size ≤ blockOf s a + PAGE_SIZE
  pages : ∀ a ∈ nodes, (blockOf s a, PAGE_SIZE) ∈ s.live
  live : ∀ p ∈ named (addresses s records), p ∈ s.live.map Prod.fst
  distinct : (holdings s nodes records).Nodup

variable {nodes records records' records'' ps qs : List ℕ} {t : MemoryPool}

theorem Owned.head_ne (h : Owned s nodes records) : s.pool.head_ ≠ 0 := by
  have behind := h.head
  unfold Pool.size at behind
  omega

theorem Owned.page (h : Owned s nodes records) {a : ℕ} (ha : a ∈ nodes) :
    blockOf s a ≠ 0 ∧ blockOf s a ≤ a ∧ a + SmallNode.size ≤ blockOf s a + PAGE_SIZE := by
  have behind := h.head
  have nonnull := h.nonnull
  have mem := h.chain.ne_null ha
  unfold blockOf Pool.size SmallNode.size PAGE_SIZE at *
  split_ifs with first
  · omega
  · omega

theorem Owned.outside (h : Owned s nodes records) {a : ℕ} (ha : a ∈ nodes) :
    blockOf s a ∉ addresses s records := fun also =>
  (List.nodup_append.mp h.distinct).2.2 _ (List.mem_map_of_mem ha) _
    (mem_named.mpr ⟨also, (h.page ha).1⟩) rfl

theorem Owned.walk (h : Owned s nodes records) :
    Listed s s.pool.largeList_ records := by
  refine ⟨h.listed, (List.nodup_append.mp h.distinct).2.1, h.live, fun r hr => ?_⟩
  obtain ⟨a, ha, behind, below⟩ := h.placed r hr
  exact ⟨_, h.pages a ha, by have low := (h.page ha).2.1; omega, below, h.outside ha⟩

theorem Owned.header (h : Owned s nodes records) {a : ℕ} (ha : a ∈ nodes) :
    Held s a SmallNode.size :=
  ⟨_, h.pages a ha, (h.page ha).2⟩

theorem Owned.first (h : Owned s nodes records) : s.pool.head_ ∈ nodes := by
  obtain ⟨rest, rfl⟩ := h.chain.exists_cons h.head_ne
  exact List.mem_cons_self

theorem Owned.pool (h : Owned s nodes records) : readPool s = some s.pool := by
  have live := h.pages _ h.first
  rw [blockOf_head] at live
  exact if_pos ⟨_, live, Nat.le_refl _, by unfold Pool.size PAGE_SIZE; omega⟩

structure Settled (s t : MemoryPool) (records records' ps : List ℕ) : Prop where
  page : t.pool_ = s.pool_
  head : t.pool.head_ = s.pool.head_
  links : ∀ a, (t.small a).next_ = (s.small a).next_
  listed : Chain 0 (fun r => (t.large r).next_) t.pool.largeList_ records'
  sublist : records'.Sublist records
  live : t.live = (passAll s ps).live
  freed : t.freed = s.freed ++ ps
  left : (named ps ++ named (addresses t records')).Perm (named (addresses s records))

theorem Settled.blocks (h : Settled s t records records' ps) : blockOf t = blockOf s := by
  funext a
  rw [blockOf, h.head, h.page, blockOf]

theorem Settled.owned (h : Owned s nodes records) (step : Settled s t records records' ps) :
    Owned t nodes records' := by
  have distinct := h.distinct
  obtain ⟨pages, large, apart⟩ := List.nodup_append.mp distinct
  obtain ⟨-, named', once⟩ := List.nodup_append.mp (step.left.nodup_iff.mpr large)
  have kept : ∀ block ∈ s.live, block.1 ∉ ps → block ∈ t.live := by
    intro block mem other
    rw [step.live]
    exact List.mem_filter.mpr ⟨mem, by simpa using other⟩
  refine ⟨?_, ?_, ?_, step.listed, fun r hr => ?_, fun a ha => ?_, fun p hp => ?_, ?_⟩
  · rw [step.head]
    exact h.chain.congr fun a _ => step.links a
  · rw [step.head, step.page]
    exact h.head
  · rw [step.page]
    exact h.nonnull
  · rw [step.blocks]
    exact h.placed r (step.sublist.subset hr)
  · rw [step.blocks]
    refine kept _ (h.pages a ha) fun passed => ?_
    have large : blockOf s a ∈ named (addresses s records) :=
      step.left.subset (List.mem_append_left _ (mem_named.mpr ⟨passed, (h.page ha).1⟩))
    exact h.outside ha (mem_named.mp large).1
  · have before := step.left.subset (List.mem_append_right _ hp)
    obtain ⟨block, mem, rfl⟩ := List.mem_map.mp (h.live p before)
    refine List.mem_map_of_mem (kept block mem fun passed => ?_)
    exact once _ (mem_named.mpr ⟨passed, (mem_named.mp hp).2⟩) _ hp rfl
  · rw [holdings, step.blocks]
    refine List.nodup_append.mpr ⟨pages, named', fun b hb q hq => ?_⟩
    exact apart b hb q (step.left.subset (List.mem_append_right _ hq))

/-- A well-formed pool with a list of records in use owns what they name. -/
theorem owned_of_recorded (h : LargeAllocation.Recorded s nodes records) (nonnull : s.pool_ ≠ 0)
    (distinct : (named (addresses s records)).Nodup) : Owned s nodes records := by
  have wellFormed := h.wellFormed
  obtain ⟨records', listed, each⟩ := wellFormed.records
  obtain rfl := h.listed.unique listed
  refine ⟨wellFormed.chain, wellFormed.head, nonnull, h.listed, fun r hr => ?_, wellFormed.live,
    fun p hp => ?_, List.nodup_append.mpr ⟨?_, distinct, ?_⟩⟩
  · obtain ⟨a, ha, behind, below⟩ := h.placed r hr
    have laid := wellFormed.laid a ha
    exact ⟨a, ha, behind, laid.ends ▸ below.trans laid.within⟩
  · obtain ⟨mem, nonnull⟩ := mem_named.mp hp
    obtain ⟨r, hr, rfl⟩ := List.mem_map.mp mem
    obtain ⟨n, -, live⟩ := (each r hr).2.resolve_left nonnull
    exact List.mem_map_of_mem live
  · refine List.pairwise_map.mpr (wellFormed.apart.imp fun {a b} apart same => ?_)
    unfold Apart PAGE_SIZE at apart
    omega
  · rintro page hpage p hp rfl
    obtain ⟨a, ha, rfl⟩ := List.mem_map.mp hpage
    obtain ⟨r, hr, same⟩ := List.mem_map.mp (mem_named.mp hp).1
    exact (each r hr).1 a ha same

theorem Settled.refl (h : Owned s nodes records) : Settled s s records records [] :=
  ⟨rfl, rfl, fun _ => rfl, h.listed, List.Sublist.refl _, by rw [passAll_nil], by simp,
    List.Perm.refl _⟩

theorem Settled.trans {u : MemoryPool} (h : Settled s t records records' ps)
    (k : Settled t u records' records'' qs) : Settled s u records records'' (ps ++ qs) := by
  refine ⟨k.page.trans h.page, k.head.trans h.head, fun a => (k.links a).trans (h.links a),
    k.listed, k.sublist.trans h.sublist, ?_, ?_, ?_⟩
  · rw [k.live]
    simp [passAll, h.live, List.filter_filter, Bool.and_comm]
  · rw [k.freed, h.freed, List.append_assoc]
  · rw [named_append, List.append_assoc]
    exact (k.left.append_left _).trans h.left

theorem release_settles (h : Owned s nodes records) (a : ℕ) :
    Settled s (s.release a) records records [] := by
  have refl := Settled.refl h
  simp only [release]
  split_ifs
  all_goals exact ⟨rfl, rfl, update_field SmallNode.next_ (by rfl), h.listed, refl.sublist,
    refl.live, refl.freed, refl.left⟩

theorem addresses_cleared {r : ℕ} (once : records.Nodup) (hr : r ∈ records)
    (cleared : (t.large r).address_ = 0) (others : ∀ q, q ≠ r → t.large q = s.large q) :
    (named [(s.large r).address_] ++ named (addresses t records)).Perm
      (named (addresses s records)) := by
  obtain ⟨front, rest, rfl⟩ := List.append_of_mem hr
  rw [List.nodup_middle, List.nodup_cons, List.mem_append, not_or] at once
  have same : ∀ l : List ℕ, r ∉ l → addresses t l = addresses s l := fun l absent =>
    List.map_congr_left fun q hq => by rw [others q (ne_of_mem_of_not_mem hq absent)]
  have split : ∀ m : MemoryPool, named (addresses m (front ++ r :: rest)) =
      named (addresses m front) ++ (named [(m.large r).address_] ++ named (addresses m rest)) := by
    intro m
    rw [← named_append, ← named_append]
    simp [addresses]
  have none : named [(t.large r).address_] = [] := by
    rw [cleared]
    rfl
  rw [split, split, none, List.nil_append, same _ once.1.1, same _ once.1.2]
  exact List.perm_append_comm_assoc ..

theorem clear_settles (h : Owned s nodes records) {r : ℕ} (hr : r ∈ records) :
    Settled s ((s.free (s.large r).address_).setLarge r
      { s.large r with size_ := 0, address_ := 0 }) records records [(s.large r).address_] := by
  obtain ⟨t, cleared⟩ : ∃ t, t = (s.free (s.large r).address_).setLarge r
      { s.large r with size_ := 0, address_ := 0 } := ⟨_, rfl⟩
  rw [← cleared]
  have record : t.large r = { s.large r with size_ := 0, address_ := 0 } := by
    rw [cleared, setLarge_self]
  have others : ∀ q, q ≠ r → t.large q = s.large q := fun q other => by
    rw [cleared, setLarge_other _ _ other]
    rfl
  have links : ∀ q, (t.large q).next_ = (s.large q).next_ := fun q => by
    rw [cleared]
    exact update_field LargeNode.next_ (by rfl) q
  have list : t.pool.largeList_ = s.pool.largeList_ := by rw [cleared]; rfl
  have live : t.live = (s.free (s.large r).address_).live := by rw [cleared]; rfl
  have freed : t.freed = s.freed ++ [(s.large r).address_] := by rw [cleared]; rfl
  have small : t.small = s.small := by rw [cleared]; rfl
  refine ⟨by rw [cleared]; rfl, by rw [cleared]; rfl, fun a => by rw [small], ?_,
    List.Sublist.refl _, ?_, freed, ?_⟩
  · rw [list]
    exact h.listed.congr fun q _ => links q
  · rw [live, ← passAll_free, passAll_nil]
  · exact addresses_cleared h.listed.nodup hr (by rw [record]) others

theorem freeMemory_settles (h : Owned s nodes records)
    (lasts : nodes.length + records.length < fuel) (p : ℕ) :
    ∃ t ps, freeMemory s fuel p = some t ∧ Settled s t records records ps := by
  have walk := h.walk
  obtain ⟨found, scan, one⟩ : ∃ found, findLarge fuel s s.pool.largeList_ p = some found ∧
      ∀ r ∈ found, r ∈ records ∧ (s.large r).address_ = p :=
    findLarge_returns walk (by omega)
  simp only [freeMemory, h.pool, scan, Option.bind_eq_bind, Option.bind_some]
  cases found with
  | some r =>
    obtain ⟨mem, rfl⟩ := one r rfl
    have address : (s.large r).address_ ∈ addresses s records := List.mem_map_of_mem mem
    have passed : freeBlock s (s.large r).address_ = some (s.free (s.large r).address_) :=
      if_pos (or_iff_not_imp_left.mpr fun nonnull => h.live _ (mem_named.mpr ⟨address, nonnull⟩))
    obtain ⟨block, live, starts, ends, outside⟩ := walk.sheltered r mem
    have stays := live_free live fun same => outside (same ▸ address)
    refine ⟨_, _, ?_, clear_settles h mem⟩
    simp only [readLarge_held (walk.sheltered r mem), passed, Option.bind_some]
    exact if_pos ⟨block, stays, starts, ends⟩
  | none =>
    obtain ⟨found, scan⟩ : ∃ found, findSmall fuel s s.pool.head_ p = some found :=
      findSmall_returns h.chain (fun a ha => h.header ha) (by omega)
    simp only [scan, Option.bind_some]
    cases found with
    | none => exact ⟨s, [], rfl, Settled.refl h⟩
    | some a => exact ⟨_, [], rfl, release_settles h a⟩

theorem Owned.stays (h : Owned s nodes records) {a : ℕ} (ha : a ∈ nodes)
    (large : ps ⊆ addresses s records) : (blockOf s a, PAGE_SIZE) ∈ (passAll s ps).live :=
  List.mem_filter.mpr ⟨h.pages a ha, by simpa using fun mem => h.outside ha (large mem)⟩

theorem held_of_page {a : ℕ} (h : Owned s nodes records) (ha : a ∈ nodes)
    (live : (blockOf s a, PAGE_SIZE) ∈ t.live) : Held t a SmallNode.size :=
  ⟨_, live, (h.page ha).2⟩

theorem pool_of_page (page : t.pool_ = s.pool_)
    (live : (blockOf s s.pool.head_, PAGE_SIZE) ∈ t.live) : readPool t = some t.pool := by
  rw [blockOf_head, ← page] at live
  exact if_pos ⟨_, live, Nat.le_refl _, by unfold Pool.size PAGE_SIZE; omega⟩

theorem resetPool_settles (h : Owned s nodes records)
    (lasts : nodes.length + records.length < fuel) :
    ∃ t, resetPool s fuel = some t ∧
      Settled s t records [] (named (addresses s records)) := by
  have freed : freeLarge fuel s s.pool.largeList_ =
      some (passAll s (named (addresses s records))) := freeLarge_returns h.walk (by omega)
  have large : named (addresses s records) ⊆ addresses s records := List.filter_subset_self _
  have pool : readPool (passAll s (named (addresses s records))) = some s.pool :=
    pool_of_page rfl (h.stays h.first large)
  obtain ⟨t, cleared⟩ : ∃ t, t = { passAll s (named (addresses s records)) with
      pool := { s.pool with largeList_ := 0, current_ := s.pool.head_ } } := ⟨_, rfl⟩
  have small : t.small = s.small := by rw [cleared]; rfl
  have live : t.live = (passAll s (named (addresses s records))).live := by rw [cleared]
  obtain ⟨headers, walked, links⟩ : ∃ headers,
      rewind fuel t s.pool.head_ = some { t with small := headers } ∧
        ∀ a, (headers a).next_ = (t.small a).next_ := by
    refine rewind_returns (small ▸ h.chain) (fun a ha => ?_) (by omega)
    exact held_of_page h ha (live ▸ h.stays ha large)
  refine ⟨{ t with small := headers }, ?_, ?_⟩
  · simp only [resetPool, h.pool, freed, pool, Option.bind_eq_bind, Option.bind_some]
    rw [← cleared]
    exact walked
  · refine ⟨by rw [cleared]; rfl, by rw [cleared], fun a => by rw [links, small], ?_,
      List.nil_sublist _, live, by rw [cleared]; rfl, ?_⟩
    · rw [cleared]
      rfl
    · have once : named (named (addresses s records)) = named (addresses s records) := by
        simp [named]
      rw [once]
      exact List.Perm.of_eq (List.append_nil _)

end Ownership

section Runs

inductive Action where
  | freeMemory (p : ℕ)
  | resetPool

def next (fuel : ℕ) (s : MemoryPool) : Action → Option MemoryPool
  | .freeMemory p => freeMemory s fuel p
  | .resetPool => resetPool s fuel

def lifetime (fuel : ℕ) (s : MemoryPool) (actions : List Action) : Option MemoryPool := do
  let s ← actions.foldlM (next fuel) s
  destroyPool s fuel

variable {nodes records records' ps : List ℕ} {t : MemoryPool}

theorem next_settles (h : Owned s nodes records) (lasts : nodes.length + records.length < fuel)
    (action : Action) : ∃ t records' ps, next fuel s action = some t ∧
      Settled s t records records' ps := by
  cases action with
  | freeMemory p =>
    obtain ⟨t, ps, result, settled⟩ := freeMemory_settles h lasts p
    exact ⟨t, records, ps, result, settled⟩
  | resetPool =>
    obtain ⟨t, result, settled⟩ := resetPool_settles h lasts
    exact ⟨t, [], _, result, settled⟩

theorem run_settles (h : Owned s nodes records) (lasts : nodes.length + records.length < fuel)
    (actions : List Action) : ∃ t records' ps, actions.foldlM (next fuel) s = some t ∧
      Settled s t records records' ps := by
  induction actions generalizing s records with
  | nil => exact ⟨s, records, [], rfl, Settled.refl h⟩
  | cons action actions ih =>
    obtain ⟨t, records', ps, result, settled⟩ := next_settles h lasts action
    have shorter := settled.sublist.length_le
    obtain ⟨u, records'', qs, rest, later⟩ := ih (settled.owned h) (by omega)
    refine ⟨u, records'', ps ++ qs, ?_, settled.trans later⟩
    rw [List.foldlM_cons, result]
    exact rest

section Destruction
variable {rest : List ℕ} (h : Owned s (s.pool.head_ :: rest) records)
include h

theorem Owned.other {a : ℕ} (ha : a ∈ rest) : blockOf s a = a :=
  if_neg (ne_of_mem_of_not_mem ha (List.nodup_cons.mp h.chain.nodup).1)

theorem Owned.pages_eq : (s.pool.head_ :: rest).map (blockOf s) = s.pool_ :: rest := by
  rw [List.map_cons, blockOf_head, List.map_congr_left fun a ha => h.other ha, List.map_id']

theorem Owned.passed :
    (named (addresses s records ++ rest ++ [s.pool_])).Perm
      (holdings s (s.pool.head_ :: rest) records) := by
  have small : named (rest ++ [s.pool_]) = rest ++ [s.pool_] := by
    refine List.filter_eq_self.mpr fun a ha => ?_
    rcases List.mem_append.mp ha with other | last
    · simpa using h.chain.ne_null (List.mem_cons_of_mem _ other)
    · simpa [List.mem_singleton.mp last] using h.nonnull
  rw [List.append_assoc, named_append, small, holdings, h.pages_eq]
  exact List.perm_append_comm.trans (List.perm_append_comm.append_right _)

/-- `destroyPool` frees the blocks the records name, the blocks behind the first one and the page
of the pool, in this order. -/
theorem destroyPool_frees (lasts : rest.length + 1 + records.length < fuel) :
    ∃ t, destroyPool s fuel = some t ∧
      t.freed = s.freed ++ (addresses s records ++ rest ++ [s.pool_]) := by
  obtain ⟨large, walked⟩ : ∃ large, destroyLarge fuel s s.pool.largeList_ =
      some { passAll s (addresses s records) with large := large } :=
    destroyLarge_returns h.walk (by omega)
  obtain ⟨t, after⟩ : ∃ t, t = { passAll s (addresses s records) with large := large } := ⟨_, rfl⟩
  rw [← after] at walked
  have pool : t.pool = s.pool ∧ t.pool_ = s.pool_ ∧ t.small = s.small := by
    rw [after]
    exact ⟨rfl, rfl, rfl⟩
  have stays : ∀ a ∈ s.pool.head_ :: rest, (blockOf s a, PAGE_SIZE) ∈ t.live := fun a ha => by
    rw [after]
    exact h.stays ha (List.Subset.refl _)
  have read : readPool t = some s.pool :=
    (pool_of_page pool.2.1 (stays _ h.first)).trans (congrArg some pool.1)
  have header : readSmall t s.pool.head_ = some (s.small s.pool.head_) :=
    (readSmall_held (held_of_page h h.first (stays _ h.first))).trans (by rw [pool.2.2])
  have freed : destroySmall fuel t (s.small s.pool.head_).next_ = some (passAll t rest) := by
    refine destroySmall_returns (pool.2.2 ▸ h.chain.2.2) (fun a ha => ?_) (by omega)
    have page := stays a (List.mem_cons_of_mem _ ha)
    rwa [h.other ha] at page
  have last : freeBlock (passAll t rest) (passAll t rest).pool_ =
      some ((passAll t rest).free s.pool_) := by
    have distinct := (List.nodup_append.mp h.distinct).1
    rw [h.pages_eq] at distinct
    have page : (s.pool_, PAGE_SIZE) ∈ t.live :=
      blockOf_head s ▸ stays _ h.first
    have own : (passAll t rest).pool_ = s.pool_ := pool.2.1
    rw [own]
    refine if_pos (.inr (List.mem_map_of_mem (List.mem_filter.mpr ⟨page, ?_⟩)))
    simpa using (List.nodup_cons.mp distinct).1
  refine ⟨(passAll t rest).free s.pool_, ?_, ?_⟩
  · simp only [destroyPool, h.pool, walked, read, header, freed, Option.bind_eq_bind,
      Option.bind_some, last]
  · change t.freed ++ rest ++ [s.pool_] = _
    rw [after]
    simp only [passAll, List.append_assoc]

end Destruction

theorem destroyPool_returns (h : Owned s nodes records)
    (lasts : nodes.length + records.length < fuel) : ∃ t ps, destroyPool s fuel = some t ∧
      t.freed = s.freed ++ ps ∧ (named ps).Perm (holdings s nodes records) := by
  obtain ⟨rest, rfl⟩ := h.chain.exists_cons h.head_ne
  obtain ⟨t, destroyed, freed⟩ := destroyPool_frees h lasts
  exact ⟨t, _, destroyed, freed, h.passed⟩

/-- Whatever pointers are given to `freeMemory`, each block the pool held at the start is passed
to `free` exactly once and nothing else but null is; and no access is a fault. -/
theorem returned_once (h : Owned s nodes records) (actions : List Action)
    (lasts : nodes.length + records.length < fuel) :
    ∃ t ps, lifetime fuel s actions = some t ∧ t.freed = s.freed ++ ps ∧
      ∀ p, p ≠ 0 → ps.count p = if p ∈ holdings s nodes records then 1 else 0 := by
  obtain ⟨t, records', ps, run, settled⟩ := run_settles h lasts actions
  have shorter := settled.sublist.length_le
  obtain ⟨u, qs, destroyed, freed, rest⟩ : ∃ u qs, destroyPool t fuel = some u ∧
      u.freed = t.freed ++ qs ∧ (named qs).Perm (holdings t nodes records') :=
    destroyPool_returns (settled.owned h) (by omega)
  refine ⟨u, ps ++ qs, ?_, ?_, fun p nonnull => ?_⟩
  · rw [lifetime, run]
    exact destroyed
  · rw [freed, settled.freed, List.append_assoc]
  · have all : (named (ps ++ qs)).Perm (holdings s nodes records) := by
      rw [holdings, settled.blocks] at rest
      rw [named_append, holdings]
      have moved : (named ps ++ (nodes.map (blockOf s) ++ named (addresses t records'))).Perm
          (nodes.map (blockOf s) ++ (named ps ++ named (addresses t records'))) :=
        List.perm_append_comm_assoc ..
      exact (rest.append_left _).trans (moved.trans (settled.left.append_left _))
    have count : (named (ps ++ qs)).count p = (ps ++ qs).count p :=
      List.count_filter (by simpa using nonnull)
    rw [← count, all.count_eq, h.distinct.count]

def furnished : MemoryPool where
  pool_ := 16
  pool := ⟨80, 40, 40⟩
  small := fun a => if a = 40 then ⟨4112, 160, 2, 0, 8192⟩ else ⟨12288, 8304, 2, 0, 0⟩
  large := fun r =>
    if r = 80 then ⟨20480, 5000, 8240⟩ else if r = 8240 then ⟨0, 0, 8272⟩ else ⟨32768, 9000, 0⟩
  bytes := fun _ => 0
  live := [(16, 4096), (8192, 4096), (20480, 5000), (32768, 9000)]
  freed := []

theorem furnished_owned : Owned furnished [40, 8192] [80, 8240, 8272] := by
  refine ⟨⟨rfl, by decide, rfl, by decide, rfl⟩, rfl, by decide,
    ⟨rfl, by decide, rfl, by decide, rfl, by decide, rfl⟩, by decide, by decide, by decide,
    by decide⟩

/-- The large block at 20480 and the allocation at 112 are freed, and the pool is reset. -/
theorem returned_once_furnished :
    ∃ t ps, lifetime 9 furnished [.freeMemory 20480, .freeMemory 112, .resetPool] = some t ∧
      t.freed = furnished.freed ++ ps ∧ ∀ p, p ≠ 0 →
        ps.count p = if p ∈ [16, 8192, 20480, 32768] then 1 else 0 := by
  have held : holdings furnished [40, 8192] [80, 8240, 8272] = [16, 8192, 20480, 32768] := by
    decide
  rw [← held]
  exact returned_once furnished_owned [.freeMemory 20480, .freeMemory 112, .resetPool] (by decide)

end Runs

end TinyNetwork.PoolDestruction
