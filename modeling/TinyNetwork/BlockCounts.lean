import TinyNetwork.PoolCreation

/-! The use counts of the blocks of a memory pool. `quote_` of a block counts the live
allocations carved from it: up on both paths of a small allocation, down in `freeMemory`,
which finds the block by address, and back to zero in `resetPool`. The count of a new
block starts from what the OS left in its memory; where that is zero the counts are exact,
and a block is rewound when the last of its allocations is freed and not before. -/
namespace TinyNetwork.BlockCounts
open MachineWord Transition LinkedList MemoryPool SmallAllocation

def InBlock (s : MemoryPool) (a : ℕ) (r : ℕ × ℕ) : Prop :=
  a + SmallNode.size ≤ r.1 ∧ r.1 < blockOf s a + PAGE_SIZE

instance (s : MemoryPool) (a : ℕ) : DecidablePred (InBlock s a) := fun r => by
  unfold InBlock
  infer_instance

inductive Action where
  | malloc (fuel size : ℕ) (os nested : Memalign)
  | freeMemory (fuel p : ℕ)
  | resetPool (fuel : ℕ)

def next (s : State) : Action → Option State
  | .malloc fuel size os nested =>
    if size ≤ PAGE_SIZE - SmallNode.size then
      (s.memory.malloc fuel size os nested).map (s.record size)
    else none
  | .freeMemory fuel p =>
    if p ∈ s.allocations.map Prod.fst then
      (s.memory.freeMemory fuel p).map fun m => ⟨m, s.allocations.filter fun r => r.1 ≠ p⟩
    else none
  | .resetPool fuel => (s.memory.resetPool fuel).map fun m => ⟨m, []⟩

def blockCounts : System State Action where
  init s := s.allocations = [] ∧ WellFormed s.memory [s.memory.pool.head_] ∧
    s.memory.pool.largeList_ = 0 ∧ (s.memory.small s.memory.pool.head_).quote_ = 0 ∧
      (s.memory.small s.memory.pool.head_).last_ = s.memory.pool.head_ + SmallNode.size
  next := next

def Supplied (s : State) : Action → Prop
  | .malloc _ _ os _ => Fresh s.memory os
  | _ => True

/-- A block that is taken from the OS comes with a count of zero. -/
def Blank (s : State) : Action → Prop
  | .malloc fuel size os _ => 0 < size →
    fit fuel s.memory.small s.memory.pool.current_ size = some none → os.ret = 0 →
      os.content.quote_ % 2 ^ 32 = 0
  | _ => True

variable {s s' : MemoryPool} {nodes nodes' : List ℕ} {fuel size p : ℕ} {os : Memalign}

section Carving

structure Quoted (s s' : MemoryPool) (nodes nodes' : List ℕ) (a before : ℕ) : Prop where
  members : ∀ b ∈ nodes', b ∈ nodes ∨ b = a
  page : s'.pool_ = s.pool_
  head : s'.pool.head_ = s.pool.head_
  list : s'.pool.largeList_ = s.pool.largeList_
  quote : (s'.small a).quote_ = increment before
  others : ∀ b ∈ nodes, b ≠ a → (s'.small b).quote_ = (s.small b).quote_

theorem quoted_new (h : WellFormed s nodes) (fresh : Fresh s os) (success : os.ret = 0)
    (hm : s.mallocSmallNode fuel size os = some (p, s')) :
    Quoted s s' nodes (nodes ++ [os.memptr]) os.memptr os.content.quote_ := by
  have absent := fresh_not_mem h fresh success
  rw [mallocSmallNode_success success] at hm
  obtain ⟨⟨small, current, last⟩, walk, result⟩ := Option.map_eq_some_iff.mp hm
  obtain ⟨-, rfl⟩ := Prod.mk.inj result
  have quote : ∀ b, (Function.update small last { small last with next_ := os.memptr } b).quote_ =
      (Function.update s.small os.memptr (header size os) b).quote_ := by
    intro b
    rw [← skip_quote walk b]
    exact update_field SmallNode.quote_ (by rfl) b
  refine ⟨fun b hb => ?_, rfl, rfl, rfl, ?_, fun b hb _ => ?_⟩
  · exact (List.mem_append.mp hb).imp_right List.mem_singleton.mp
  · rw [quote, Function.update_self]
    rfl
  · rw [quote, Function.update_of_ne (ne_of_mem_of_not_mem hb absent)]

theorem mallocSmall_quoted (h : WellFormed s nodes) (fresh : Fresh s os)
    (hsize : size ≤ PAGE_SIZE - SmallNode.size)
    (hm : s.mallocSmall fuel size os = some (p, s')) :
    (p = 0 ∧ s' = s) ∨
      (∃ a ∈ nodes, Carved s s' nodes nodes p size a ∧
        Quoted s s' nodes nodes a (s.small a).quote_) ∨
      (fit fuel s.small s.pool.current_ size = some none ∧ os.ret = 0 ∧ os.memptr ∉ nodes ∧
        Carved s s' nodes (nodes ++ [os.memptr]) p size os.memptr ∧
        Quoted s s' nodes (nodes ++ [os.memptr]) os.memptr os.content.quote_) := by
  rcases mallocSmall_cases h hm with
    ⟨a, ha, fits, rfl, rfl⟩ | ⟨scan, ⟨success, result⟩ | ⟨-, null⟩⟩
  · refine .inr (.inl ⟨a, ha, carved_fit h ha fits _, ?_⟩)
    refine ⟨fun b hb => .inl hb, rfl, rfl, rfl, ?_, fun b _ other => ?_⟩
    · rw [setSmall_self]
    · rw [setSmall_other _ _ other]
  · exact .inr (.inr ⟨scan, success, fresh_not_mem h fresh success,
      carved_new h fresh hsize success result, quoted_new h fresh success result⟩)
  · exact .inl null

end Carving

section Tally

structure Tallied (s : State) (nodes : List ℕ) : Prop where
  placed : Placed s nodes
  positive : ∀ r ∈ s.allocations, 0 < r.2
  list : s.memory.pool.largeList_ = 0
  counts : ∀ a ∈ nodes,
    (s.memory.small a).quote_ = s.allocations.countP fun r => InBlock s.memory a r

variable {t : State} {r : ℕ × ℕ} {a b : ℕ}

theorem inBlock_unique (h : WellFormed s nodes) (ha : a ∈ nodes) (hb : b ∈ nodes)
    (first : InBlock s a r) (second : InBlock s b r) : a = b := by
  by_contra other
  have apart := pages_apart h ha hb other
  have lowA := blockOf_le h a
  have lowB := blockOf_le h b
  unfold InBlock SmallNode.size at first second
  unfold Apart at apart
  omega

theorem Tallied.block (h : Tallied t nodes) (hr : r ∈ t.allocations) :
    ∃ a ∈ nodes, InBlock t.memory a r ∧ r.1 + r.2 ≤ (t.memory.small a).last_ := by
  obtain ⟨a, ha, behind, below⟩ := h.placed.inside r hr
  have within := (h.placed.wellFormed.laid a ha).within
  have ends := (h.placed.wellFormed.laid a ha).ends
  have positive := h.positive r hr
  refine ⟨a, ha, ⟨behind, ?_⟩, below⟩
  omega

theorem Tallied.starts (h : Tallied t nodes) : (t.allocations.map Prod.fst).Nodup := by
  refine List.pairwise_map.mpr (h.placed.disjoint.imp_of_mem fun {r q} hr hq apart same => ?_)
  have positive := h.positive r hr
  have positive' := h.positive q hq
  unfold Apart at apart
  omega

/-- The allocations of a block start at different places of its page, so the count does not
wrap. -/
theorem Tallied.bounded (h : Tallied t nodes) (a : ℕ) :
    (t.allocations.countP fun r => InBlock t.memory a r) ≤ PAGE_SIZE := by
  have distinct : ((t.allocations.filter fun r => InBlock t.memory a r).map Prod.fst).Nodup :=
    h.starts.sublist (List.filter_sublist.map Prod.fst)
  have inside : ((t.allocations.filter fun r => InBlock t.memory a r).map Prod.fst) ⊆
      List.range' (blockOf t.memory a) PAGE_SIZE := by
    intro p hp
    obtain ⟨r, hr, rfl⟩ := List.mem_map.mp hp
    obtain ⟨behind, below⟩ : InBlock t.memory a r := by simpa using (List.mem_filter.mp hr).2
    have low := blockOf_le h.placed.wellFormed a
    rw [List.mem_range'_1]
    omega
  have fewer := List.Nodup.length_le_of_subset distinct inside
  rw [List.length_map, List.length_range'] at fewer
  rw [List.countP_eq_length_filter]
  exact fewer

theorem inBlock_same (page : s'.pool_ = s.pool_) (head : s'.pool.head_ = s.pool.head_) :
    InBlock s' a r ↔ InBlock s a r := by
  unfold InBlock blockOf
  rw [page, head]

theorem count_same (page : s'.pool_ = s.pool_) (head : s'.pool.head_ = s.pool.head_)
    (l : List (ℕ × ℕ)) :
    (l.countP fun r => InBlock s' a r) = l.countP fun r => InBlock s a r :=
  List.countP_congr fun r _ => by simpa using inBlock_same page head

theorem Tallied.carve {m : MemoryPool} {before : ℕ} (h : Tallied t nodes)
    (carved : Carved t.memory m nodes nodes' p size a)
    (quoted : Quoted t.memory m nodes nodes' a before) (some_ : 0 < size)
    (counted : increment before = (t.allocations.countP fun r => InBlock t.memory a r) + 1) :
    Tallied (t.record size (p, m)) nodes' := by
  have inside : InBlock m a (p, size) := by
    have within := (carved.wellFormed.laid a carved.mem).within
    rw [carved.last, (carved.wellFormed.laid a carved.mem).ends] at within
    exact ⟨carved.behind, by simp only; omega⟩
  refine ⟨h.placed.carve carved, ?_, quoted.list.trans h.list, fun b hb => ?_⟩
  · rw [carved.recorded]
    exact List.forall_mem_cons.mpr ⟨some_, h.positive⟩
  · rw [carved.recorded, List.countP_cons]
    change (m.small b).quote_ = (t.allocations.countP fun r => InBlock m b r) +
      if decide (InBlock m b (p, size)) = true then 1 else 0
    rw [count_same quoted.page quoted.head]
    by_cases same : b = a
    · subst same
      rw [if_pos (by simpa using inside), quoted.quote, counted]
    · have old := (quoted.members b hb).resolve_right same
      have outside : ¬InBlock m b (p, size) := fun also =>
        same (inBlock_unique carved.wellFormed hb carved.mem also inside)
      rw [if_neg (by simpa using outside), quoted.others b old same, h.counts b old]
      rfl

theorem Tallied.increment (h : Tallied t nodes) (ha : a ∈ nodes) :
    increment (t.memory.small a).quote_ =
      (t.allocations.countP fun r => InBlock t.memory a r) + 1 := by
  have bounded := h.bounded a
  rw [h.counts a ha, MemoryPool.increment]
  exact Nat.mod_eq_of_lt (by unfold PAGE_SIZE at bounded; omega)

theorem Tallied.none (h : Tallied t nodes) {m : MemoryPool} (wellFormed : WellFormed m nodes')
    (page : m.pool_ = t.memory.pool_) (head : m.pool.head_ = t.memory.pool.head_)
    (grown : ∀ b ∈ nodes, b ∈ nodes') (ha : a ∈ nodes') (new : a ∉ nodes) :
    (t.allocations.countP fun r => InBlock t.memory a r) = 0 := by
  refine List.countP_eq_zero.mpr fun r hr => ?_
  obtain ⟨b, hb, inside, -⟩ := h.block hr
  have other : ¬InBlock t.memory a r := fun also => new ?_
  · simpa using other
  · have same := inBlock_unique wellFormed ha (grown b hb) ((inBlock_same page head).mpr also)
      ((inBlock_same page head).mpr inside)
    rw [same]
    exact hb

theorem Tallied.malloc {nested : Memalign} {m : MemoryPool} (h : Tallied t nodes)
    (hsize : size ≤ PAGE_SIZE - SmallNode.size) (fresh : Fresh t.memory os)
    (blank : Blank t (.malloc fuel size os nested))
    (hm : t.memory.malloc fuel size os nested = some (p, m)) :
    ∃ nodes', Tallied (t.record size (p, m)) nodes' := by
  have kept : ∀ {p m}, p = 0 → m = t.memory → Tallied (t.record size (p, m)) nodes := by
    rintro p m rfl rfl
    exact h
  by_cases none : size = 0
  · rw [MemoryPool.malloc, if_pos none] at hm
    obtain ⟨rfl, rfl⟩ := Prod.mk.inj (Option.some.inj hm)
    exact ⟨nodes, kept rfl rfl⟩
  · have some_ : 0 < size := Nat.pos_of_ne_zero none
    rw [malloc_small ⟨some_, hsize⟩] at hm
    rcases mallocSmall_quoted h.placed.wellFormed fresh hsize hm with
      ⟨null, same⟩ | ⟨a, ha, carved, quoted⟩ | ⟨full, success, new, carved, quoted⟩
    · exact ⟨nodes, kept null same⟩
    · exact ⟨nodes, h.carve carved quoted some_ (h.increment ha)⟩
    · refine ⟨_, h.carve carved quoted some_ ?_⟩
      have empty := h.none carved.wellFormed quoted.page quoted.head carved.grown carved.mem new
      have zero := blank some_ full success
      rw [empty, MemoryPool.increment]
      omega

end Tally

section Release

theorem findSmall_eq_search {small : ℕ → SmallNode} {node : ℕ} :
    findSmall fuel small node p =
      search 0 (fun a => (small a).next_) (fun a => a ≤ p ∧ p ≤ (small a).end_) fuel node := by
  induction fuel generalizing node with
  | zero => rfl
  | succ fuel ih => rw [findSmall, search, ih]

theorem findSmall_mem {small : ℕ → SmallNode} {node a : ℕ} {found : Option ℕ}
    (chain : Linked small node nodes) (ha : a ∈ nodes)
    (test : ∀ b ∈ nodes, b ≤ p ∧ p ≤ (small b).end_ ↔ b = a)
    (h : findSmall fuel small node p = some found) : found = some a := by
  rw [findSmall_eq_search] at h
  obtain ⟨one, all⟩ := chain.search_spec h
  cases found with
  | none => exact absurd ((test a ha).mpr rfl) (all rfl a ha)
  | some b =>
    obtain ⟨hb, passes⟩ := one b rfl
    rw [(test b hb).mp passes]

theorem findSmall_total {small : ℕ → SmallNode} {node : ℕ} (chain : Linked small node nodes)
    (enough : nodes.length < fuel) : ∃ found, findSmall fuel small node p = some found := by
  rw [findSmall_eq_search]
  exact chain.search_total enough

structure Released (s s' : MemoryPool) (nodes : List ℕ) (a : ℕ) : Prop where
  wellFormed : WellFormed s' nodes
  page : s'.pool_ = s.pool_
  head : s'.pool.head_ = s.pool.head_
  list : s'.pool.largeList_ = s.pool.largeList_
  quote : (s'.small a).quote_ = decrement (s.small a).quote_
  last : (s'.small a).last_ =
    if decrement (s.small a).quote_ = 0 then a + SmallNode.size else (s.small a).last_
  others : ∀ b, b ≠ a → s'.small b = s.small b

theorem start_eq (h : WellFormed s nodes) {a : ℕ} (ha : a ∈ nodes) :
    (if a = s.pool.head_ then sizeAdd (sizeAdd s.pool_ Pool.size) SmallNode.size
      else sizeAdd a SmallNode.size) = a + SmallNode.size := by
  have laid := h.laid a ha
  have starts := laid.starts
  have within := laid.within
  have ends := laid.ends
  have bound := laid.bound
  have behind : sizeAdd a SmallNode.size = a + SmallNode.size := sizeAdd_of_lt (by omega)
  split_ifs with first
  · have front : sizeAdd s.pool_ Pool.size = a := by
      have head := h.head
      rw [first, head]
      exact sizeAdd_of_lt (by omega)
    rw [front, behind]
  · exact behind

theorem release_eq (h : WellFormed s nodes) {a : ℕ} (ha : a ∈ nodes) :
    ∃ quote last failed current,
      s.release a = { s.setSmall a { s.small a with
          quote_ := quote, last_ := last, failed_ := failed } with
        pool := { s.pool with current_ := current } } ∧
      quote = decrement (s.small a).quote_ ∧
      last = (if decrement (s.small a).quote_ = 0 then a + SmallNode.size
        else (s.small a).last_) ∧
      current ∈ nodes := by
  by_cases zero : decrement (s.small a).quote_ = 0
  · refine ⟨_, a + SmallNode.size, 0, s.pool.head_, ?_, rfl, ?_, head_mem h⟩
    · simp only [release, if_pos zero, start_eq h ha]
    · rw [if_pos zero]
  · refine ⟨_, (s.small a).last_, (s.small a).failed_, s.pool.current_, ?_, rfl, ?_, h.current⟩
    · simp only [release, if_neg zero]
      rfl
    · rw [if_neg zero]

theorem release_spec (h : WellFormed s nodes) {a : ℕ} (ha : a ∈ nodes) :
    Released s (s.release a) nodes a := by
  obtain ⟨quote, last, failed, current, shape, counted, filled, moved⟩ := release_eq h ha
  have starts := (h.laid a ha).starts
  have within := (h.laid a ha).within
  rw [shape]
  refine ⟨h.update ⟨rfl, rfl⟩ moved (fun b hb => ?_) (fun b hb => ?_) h.live h.records, rfl, rfl,
    rfl, ?_, ?_, fun b other => setSmall_other _ _ other⟩
  · exact ⟨update_field SmallNode.next_ (by rfl) b, update_field SmallNode.end_ (by rfl) b⟩
  · by_cases same : b = a
    · subst same
      simp only [setSmall, Function.update_self, filled]
      split_ifs
      · exact ⟨Nat.le_refl _, starts.trans within⟩
      · exact ⟨starts, within⟩
    · simp only [setSmall, Function.update_of_ne same]
      exact ⟨(h.laid b hb).starts, (h.laid b hb).within⟩
  · simp only [setSmall, Function.update_self, counted]
  · simp only [setSmall, Function.update_self, filled]

theorem removed {l : List (ℕ × ℕ)} (distinct : (l.map Prod.fst).Nodup) {r : ℕ × ℕ} (hr : r ∈ l) :
    l.Perm (r :: l.filter fun q => q.1 ≠ r.1) := by
  have once : (r :: l.filter fun q => q.1 ≠ r.1).Nodup :=
    List.nodup_cons.mpr ⟨by simp, distinct.of_map.filter _⟩
  refine (List.perm_ext_iff_of_nodup distinct.of_map once).mpr fun q => ?_
  rw [List.mem_cons, List.mem_filter]
  constructor
  · intro hq
    by_cases same : q.1 = r.1
    · exact .inl (List.inj_on_of_nodup_map distinct hq hr same)
    · exact .inr ⟨hq, by simpa using same⟩
  · rintro (rfl | ⟨hq, -⟩)
    · exact hr
    · exact hq

theorem freeMemory_releases {t : State} {r : ℕ × ℕ} (h : Tallied t nodes) (hr : r ∈ t.allocations)
    {m : MemoryPool} (hm : t.memory.freeMemory fuel r.1 = some m) :
    ∃ a ∈ nodes, InBlock t.memory a r ∧ m = t.memory.release a := by
  have wellFormed := h.placed.wellFormed
  obtain ⟨a, ha, inside, -⟩ := h.block hr
  refine ⟨a, ha, inside, ?_⟩
  have test : ∀ b ∈ nodes, b ≤ r.1 ∧ r.1 ≤ (t.memory.small b).end_ ↔ b = a := by
    intro b hb
    have laid := wellFormed.laid b hb
    have ends := laid.ends
    obtain ⟨behind, below⟩ := inside
    constructor
    · rintro ⟨after_, before⟩
      by_contra other
      have apart := pages_apart wellFormed hb ha other
      have low := blockOf_le wellFormed a
      have low' := blockOf_le wellFormed b
      unfold Apart at apart
      unfold SmallNode.size at behind
      omega
    · rintro rfl
      unfold SmallNode.size at behind
      omega
  cases fuel with
  | zero => cases hm
  | succ fuel =>
    rw [freeMemory, findLarge, if_pos h.list, Option.bind_some] at hm
    obtain ⟨found, scan, rfl⟩ := Option.map_eq_some_iff.mp hm
    rw [findSmall_mem wellFormed.chain ha test scan]

theorem freeMemory_total {t : State} (h : Tallied t nodes) (p : ℕ)
    (enough : nodes.length < fuel) : ∃ m, t.memory.freeMemory fuel p = some m := by
  obtain ⟨found, scan⟩ :
      ∃ found, findSmall fuel t.memory.small t.memory.pool.head_ p = some found :=
    findSmall_total h.placed.wellFormed.chain enough
  obtain ⟨fuel, rfl⟩ := Nat.exists_eq_add_one_of_ne_zero (Nat.ne_zero_of_lt enough)
  rw [freeMemory, findLarge, if_pos h.list, Option.bind_some, scan]
  exact ⟨_, rfl⟩

variable {t : State} {r : ℕ × ℕ} {a : ℕ} {m : MemoryPool}

theorem Tallied.decrement (h : Tallied t nodes) (ha : a ∈ nodes) (hr : r ∈ t.allocations)
    (inside : InBlock t.memory a r) :
    MemoryPool.decrement (t.memory.small a).quote_ + 1 =
      t.allocations.countP fun q => InBlock t.memory a q := by
  have bounded := h.bounded a
  have some_ : 0 < t.allocations.countP fun q => InBlock t.memory a q :=
    List.countP_pos_iff.mpr ⟨r, hr, by simpa using inside⟩
  rw [h.counts a ha, MemoryPool.decrement]
  unfold PAGE_SIZE at bounded
  omega

theorem Tallied.freeMemory (h : Tallied t nodes) (hr : r ∈ t.allocations)
    (hm : t.memory.freeMemory fuel r.1 = some m) :
    Tallied ⟨m, t.allocations.filter fun q => q.1 ≠ r.1⟩ nodes := by
  obtain ⟨a, ha, inside, same⟩ := freeMemory_releases h hr hm
  have released := release_spec h.placed.wellFormed ha
  rw [← same] at released
  have counted := h.decrement ha hr inside
  have split := removed h.starts hr
  have rest : ∀ b, (t.allocations.countP fun q => InBlock t.memory b q) =
      ((t.allocations.filter fun q => q.1 ≠ r.1).countP fun q => InBlock t.memory b q) +
        if decide (InBlock t.memory b r) = true then 1 else 0 := by
    intro b
    rw [split.countP_eq, List.countP_cons]
  have kept : ∀ q ∈ t.allocations.filter fun q => q.1 ≠ r.1, q ∈ t.allocations := fun q hq =>
    List.mem_of_mem_filter hq
  refine ⟨⟨released.wellFormed, fun q hq => h.placed.aligned q (kept q hq), fun q hq => ?_,
    h.placed.disjoint.sublist List.filter_sublist⟩, fun q hq => h.positive q (kept q hq),
    released.list.trans h.list, fun b hb => ?_⟩
  · obtain ⟨b, hb, there, below⟩ := h.block (kept q hq)
    refine ⟨b, hb, there.1, ?_⟩
    by_cases same : b = a
    · subst same
      have another : 0 < (t.allocations.filter fun q => q.1 ≠ r.1).countP fun q =>
          InBlock t.memory b q := List.countP_pos_iff.mpr ⟨q, hq, by simpa using there⟩
      have both := rest b
      rw [if_pos (by simpa using inside)] at both
      rw [released.last, if_neg (by omega)]
      exact below
    · rw [released.others b same]
      exact below
  · change (m.small b).quote_ =
      (t.allocations.filter fun q => q.1 ≠ r.1).countP fun q => InBlock m b q
    rw [count_same released.page released.head]
    have both := rest b
    by_cases same : b = a
    · subst same
      rw [if_pos (by simpa using inside)] at both
      rw [released.quote]
      omega
    · have outside : ¬InBlock t.memory b r := fun also =>
        same (inBlock_unique h.placed.wellFormed hb ha also inside)
      rw [if_neg (by simpa using outside)] at both
      rw [released.others b same, h.counts b hb, both]
      rfl

theorem Tallied.resetPool (h : Tallied t nodes) (hm : t.memory.resetPool fuel = some m) :
    Tallied ⟨m, []⟩ nodes := by
  have wellFormed := h.placed.wellFormed
  refine ⟨⟨resetPool_spec wellFormed hm, by simp, by simp, .nil⟩, by simp, ?_, ?_⟩
  · obtain ⟨s₁, freed, rest⟩ := Option.bind_eq_some_iff.mp hm
    obtain ⟨small, rewound, rfl⟩ := Option.map_eq_some_iff.mp rest
    rfl
  · obtain ⟨records, listed, -⟩ := wellFormed.records
    obtain ⟨s₁, freed, rest⟩ := Option.bind_eq_some_iff.mp hm
    obtain ⟨small, rewound, rfl⟩ := Option.map_eq_some_iff.mp rest
    obtain ⟨shape, -⟩ := freeLarge_spec listed freed
    rw [shape] at rewound
    intro a ha
    change (small a).quote_ = 0
    rw [(rewind_spec wellFormed.chain rewound).1 a ha]

end Release

section Runs

/-- `nodes` are the headers. A block with a live allocation is filled beyond its start, and
`freeMemory` moves the fill back to the start when it frees the last one, and moves no other
fill. Every operation returns. -/
structure Exact (s : State) (nodes : List ℕ) : Prop where
  wellFormed : WellFormed s.memory nodes
  counts : ∀ a ∈ nodes,
    (s.memory.small a).quote_ = s.allocations.countP fun r => InBlock s.memory a r
  filled : ∀ r ∈ s.allocations, ∃ a ∈ nodes,
    InBlock s.memory a r ∧ a + SmallNode.size < (s.memory.small a).last_
  rewound : ∀ fuel m, ∀ r ∈ s.allocations, s.memory.freeMemory fuel r.1 = some m → ∀ a ∈ nodes,
    (m.small a).last_ =
      if InBlock s.memory a r ∧ (s.allocations.countP fun q => InBlock s.memory a q) = 1 then
        a + SmallNode.size
      else (s.memory.small a).last_
  returns : ∃ enough, ∀ fuel, enough < fuel →
    (∀ size os nested, size ≤ PAGE_SIZE - SmallNode.size → Fresh s.memory os →
      (s.memory.malloc fuel size os nested).isSome) ∧
      (∀ p, (s.memory.freeMemory fuel p).isSome) ∧ (s.memory.resetPool fuel).isSome

variable {t : State}

theorem created_initial (h : PoolCreation.Created s) (aligned : 16 ∣ s.pool_)
    (bound : s.pool_ + PAGE_SIZE < 2 ^ 64) (live : (s.pool_, PAGE_SIZE) ∈ s.live) :
    blockCounts.init ⟨s, []⟩ :=
  ⟨rfl, h.wellFormed aligned bound live, h.largeList, h.quote, h.last⟩

theorem Tallied.initial (h : blockCounts.init t) : Tallied t [t.memory.pool.head_] := by
  obtain ⟨empty, wellFormed, list, zero, -⟩ := h
  refine ⟨⟨wellFormed, by simp [empty], by simp [empty], by simp [empty]⟩, by simp [empty], list,
    fun a ha => ?_⟩
  rw [List.mem_singleton.mp ha, zero, empty]
  rfl

theorem Tallied.next {u : State} {action : Action} (h : Tallied t nodes)
    (supplied : Supplied t action) (blank : Blank t action)
    (hn : BlockCounts.next t action = some u) : ∃ nodes', Tallied u nodes' := by
  cases action with
  | malloc fuel size os nested =>
    obtain ⟨hsize, hn⟩ := Option.ite_none_right_eq_some.mp hn
    obtain ⟨⟨p, m⟩, result, rfl⟩ := Option.map_eq_some_iff.mp hn
    exact h.malloc hsize supplied blank result
  | freeMemory fuel p =>
    obtain ⟨live, hn⟩ := Option.ite_none_right_eq_some.mp hn
    obtain ⟨r, hr, rfl⟩ := List.mem_map.mp live
    obtain ⟨m, result, rfl⟩ := Option.map_eq_some_iff.mp hn
    exact ⟨nodes, h.freeMemory hr result⟩
  | resetPool fuel =>
    obtain ⟨m, result, rfl⟩ := Option.map_eq_some_iff.mp hn
    exact ⟨nodes, h.resetPool result⟩

theorem Tallied.rewound (h : Tallied t nodes) {r : ℕ × ℕ} (hr : r ∈ t.allocations)
    {m : MemoryPool} (hm : t.memory.freeMemory fuel r.1 = some m) {b : ℕ} (hb : b ∈ nodes) :
    (m.small b).last_ =
      if InBlock t.memory b r ∧ (t.allocations.countP fun q => InBlock t.memory b q) = 1 then
        b + SmallNode.size
      else (t.memory.small b).last_ := by
  have wellFormed := h.placed.wellFormed
  obtain ⟨a, ha, inside, same⟩ := freeMemory_releases h hr hm
  have released := release_spec wellFormed ha
  rw [← same] at released
  by_cases at_ : b = a
  · subst at_
    have counted := h.decrement ha hr inside
    rw [released.last]
    exact if_congr (by simp only [inside, true_and]; omega) rfl rfl
  · rw [released.others b at_, if_neg]
    rintro ⟨also, -⟩
    exact at_ (inBlock_unique wellFormed hb ha also inside)

theorem Tallied.exact (h : Tallied t nodes) : Exact t nodes := by
  have wellFormed := h.placed.wellFormed
  refine ⟨wellFormed, h.counts, fun r hr => ?_, fun fuel m r hr hm a ha => h.rewound hr hm ha, ?_⟩
  · obtain ⟨a, ha, inside, below⟩ := h.block hr
    have positive := h.positive r hr
    have behind := inside.1
    exact ⟨a, ha, inside, by omega⟩
  · obtain ⟨enough, resets⟩ := resetPool_total wellFormed
    refine ⟨enough + nodes.length, fun fuel lasts =>
      ⟨fun size os nested hsize fresh => ?_, fun p => ?_, ?_⟩⟩
    · by_cases none : size = 0
      · rw [MemoryPool.malloc, if_pos none]
        rfl
      · obtain ⟨result, returns⟩ : ∃ result, t.memory.mallocSmall fuel size os = some result :=
          mallocSmall_total wellFormed fresh (Nat.lt_of_le_of_lt (Nat.le_add_left _ _) lasts)
        rw [malloc_small ⟨Nat.pos_of_ne_zero none, hsize⟩, returns]
        rfl
    · obtain ⟨m, returns⟩ : ∃ m, t.memory.freeMemory fuel p = some m :=
        freeMemory_total h p (Nat.lt_of_le_of_lt (Nat.le_add_left _ _) lasts)
      rw [returns]
      rfl
    · obtain ⟨m, returns⟩ := resets fuel (Nat.lt_of_le_of_lt (Nat.le_add_right _ _) lasts)
      rw [returns]
      rfl

theorem Tallied.reachable {s : State}
    (h : blockCounts.Reachable (fun s action => Supplied s action ∧ Blank s action) s) :
    ∃ nodes, Tallied s nodes := by
  refine h.invariant (P := fun s => ∃ nodes, Tallied s nodes) ?_ ?_
  · exact fun s hs => ⟨_, Tallied.initial hs⟩
  · rintro s action t ⟨nodes, hs⟩ ⟨supplied, blank⟩ hn
    exact hs.next supplied blank hn

/-- As long as new blocks come with a count of zero, a block is rewound when the last of its
allocations is freed, and not before. -/
theorem counts_exact {s : State}
    (h : blockCounts.Reachable (fun s action => Supplied s action ∧ Blank s action) s) :
    ∃ nodes, Exact s nodes := by
  obtain ⟨nodes, tallied⟩ := Tallied.reachable h
  exact ⟨nodes, tallied.exact⟩

instance (s : State) : (action : Action) → Decidable (Supplied s action)
  | .malloc _ _ os _ => inferInstanceAs (Decidable (Fresh s.memory os))
  | .freeMemory _ _ => isTrue trivial
  | .resetPool _ => isTrue trivial

instance (s : State) : (action : Action) → Decidable (Blank s action)
  | .malloc fuel size os _ => inferInstanceAs (Decidable (0 < size →
      fit fuel s.memory.small s.memory.pool.current_ size = some none → os.ret = 0 →
        os.content.quote_ % 2 ^ 32 = 0))
  | .freeMemory _ _ => isTrue trivial
  | .resetPool _ => isTrue trivial

theorem sample_single : blockCounts.init sample := ⟨rfl, sample_wellFormed, rfl, rfl, rfl⟩

/-- The first block is rewound between two allocations at its start. -/
theorem counts_exact_rewound :
    ∃ s, blockCounts.Reachable (fun s action => Supplied s action ∧ Blank s action) s ∧
      s.allocations = [(80, 50), (8224, 100)] ∧ ∃ nodes, Exact s nodes := by
  have run : (blockCounts.execute (fun s action => Supplied s action ∧ Blank s action) sample
      [.malloc 9 4000 refusal refusal, .malloc 9 100 ⟨0, 8192, ⟨1, 2, 0, 4, 5⟩⟩ refusal,
        .freeMemory 9 80, .malloc 9 50 refusal refusal]).map (·.allocations) =
      some [(80, 50), (8224, 100)] := by decide +kernel
  obtain ⟨s, reached, ends⟩ := System.Reachable.of_replay sample_single run
  exact ⟨s, reached, ends, counts_exact reached⟩

/-- A block at 8192 whose leftover count is one short of the wrap is rewound with an allocation
in use, which the next one then overlaps. -/
theorem counts_leftover :
    ∃ s, blockCounts.Reachable Supplied s ∧ (¬∃ nodes, Exact s nodes) ∧
      s.allocations = [(8336, 100), (80, 4000)] ∧
        (s.memory.malloc 9 200 refusal refusal).map Prod.fst = some 8224 := by
  have run : (blockCounts.execute Supplied sample
      [.malloc 9 4000 refusal refusal, .malloc 9 100 ⟨0, 8192, ⟨0, 0, 2 ^ 32 - 1, 0, 0⟩⟩ refusal,
        .malloc 9 100 refusal refusal, .freeMemory 9 8224]).map (fun s =>
        ((s.memory.pool.head_, (s.memory.small 40).next_, (s.memory.small 8192).quote_,
          s.allocations.countP fun r => InBlock s.memory 8192 r), s.allocations,
            (s.memory.malloc 9 200 refusal refusal).map Prod.fst)) =
      some ((40, 8192, 0, 1), [(8336, 100), (80, 4000)], some 8224) := by decide +kernel
  obtain ⟨s, reached, ends⟩ := System.Reachable.of_replay sample_single run
  obtain ⟨⟨head, link, quote, live⟩, allocations, overlap⟩ := by
    simpa only [Prod.mk.injEq] using ends
  refine ⟨s, reached, ?_, allocations, overlap⟩
  rintro ⟨nodes, exact_⟩
  have chain := exact_.wellFormed.chain
  rw [head] at chain
  obtain ⟨rest, rfl⟩ := chain.exists_cons (by decide)
  have tail : Linked s.memory.small 8192 rest := link ▸ chain.2.2
  obtain ⟨rest, rfl⟩ := tail.exists_cons (by decide)
  have counted := exact_.counts 8192 (by simp)
  rw [quote, live] at counted
  exact absurd counted (by decide)

/-- The clients' view of a pool: what is in use lies in one page each, apart from one another and
from all that the pool keeps for itself, and so does whatever is handed out next. -/
structure Separate (s : State) (nodes : List ℕ) : Prop where
  wellFormed : WellFormed s.memory nodes
  inside : ∀ r ∈ s.allocations, 16 ∣ r.1 ∧ ∃ a ∈ nodes,
    blockOf s.memory a ≤ r.1 ∧ r.1 + r.2 ≤ blockOf s.memory a + PAGE_SIZE
  disjoint : s.allocations.Pairwise fun r q => Apart r.1 r.2 q.1 q.2
  headers : ∀ r ∈ s.allocations, Apart s.memory.pool_ Pool.size r.1 r.2 ∧
    ∀ a ∈ nodes, Apart a SmallNode.size r.1 r.2
  given : ∀ fuel size os nested p m, size ≤ PAGE_SIZE - SmallNode.size → Fresh s.memory os →
    Blank s (.malloc fuel size os nested) → s.memory.malloc fuel size os nested = some (p, m) →
      p ≠ 0 → ∀ r ∈ s.allocations, Apart p size r.1 r.2

theorem header_apart {r : ℕ × ℕ} {a b : ℕ} (h : WellFormed s nodes) (ha : a ∈ nodes)
    (hb : b ∈ nodes) (behind : a + SmallNode.size ≤ r.1)
    (below : r.1 + r.2 ≤ blockOf s a + PAGE_SIZE) :
    Apart b SmallNode.size r.1 r.2 := by
  by_cases same : b = a
  · exact .inl (same ▸ behind)
  · have pages := pages_apart h hb ha same
    have lowA := blockOf_le h a
    have lowB := blockOf_le h b
    have laid := h.laid b hb
    have header : b + SmallNode.size ≤ blockOf s b + PAGE_SIZE :=
      laid.ends ▸ laid.starts.trans laid.within
    unfold Apart at pages ⊢
    omega

theorem pool_apart {r : ℕ × ℕ} {a : ℕ} (h : WellFormed s nodes) (ha : a ∈ nodes)
    (behind : a + SmallNode.size ≤ r.1) (below : r.1 + r.2 ≤ blockOf s a + PAGE_SIZE) :
    Apart s.pool_ Pool.size r.1 r.2 := by
  have head := h.head
  by_cases first : a = s.pool.head_
  · refine .inl (Nat.le_trans ?_ behind)
    rw [first, head]
    exact Nat.le_add_right _ _
  · have pages := pages_apart h ha (head_mem h) first
    have low := blockOf_le h a
    have laid := h.laid _ (head_mem h)
    have header : s.pool.head_ + SmallNode.size ≤ s.pool_ + PAGE_SIZE := by
      rw [← blockOf_head s]
      exact laid.ends ▸ laid.starts.trans laid.within
    rw [blockOf_head] at pages
    unfold Apart at pages ⊢
    omega

theorem Tallied.separate (h : Tallied t nodes) : Separate t nodes := by
  have wellFormed := h.placed.wellFormed
  have within : ∀ r ∈ t.allocations, ∃ a ∈ nodes, a + SmallNode.size ≤ r.1 ∧
      r.1 + r.2 ≤ blockOf t.memory a + PAGE_SIZE := fun r hr => by
    obtain ⟨a, ha, behind, below⟩ := h.placed.inside r hr
    have laid := wellFormed.laid a ha
    exact ⟨a, ha, behind, laid.ends ▸ below.trans laid.within⟩
  refine ⟨wellFormed, fun r hr => ⟨h.placed.aligned r hr, ?_⟩, h.placed.disjoint,
    fun r hr => ⟨?_, ?_⟩, fun fuel size os nested p m hsize fresh blank result given r hr => ?_⟩
  · obtain ⟨a, ha, behind, below⟩ := within r hr
    exact ⟨a, ha, (blockOf_le wellFormed a).trans (Nat.le_of_add_right_le behind), below⟩
  · obtain ⟨a, ha, behind, below⟩ := within r hr
    exact pool_apart wellFormed ha behind below
  · obtain ⟨a, ha, behind, below⟩ := within r hr
    exact fun b hb => header_apart wellFormed ha hb behind below
  · obtain ⟨nodes', after⟩ := h.malloc hsize fresh blank result
    have disjoint := after.placed.disjoint
    rw [State.record, if_neg given] at disjoint
    exact (List.pairwise_cons.mp disjoint).1 r hr

/-- Allocations in use never overlap, through every order of `malloc`, `freeMemory` and
`resetPool`, as long as new blocks come with a count of zero. -/
theorem live_allocations_apart {s : State}
    (h : blockCounts.Reachable (fun s action => Supplied s action ∧ Blank s action) s) :
    ∃ nodes, Separate s nodes := by
  obtain ⟨nodes, tallied⟩ := Tallied.reachable h
  exact ⟨nodes, tallied.separate⟩

/-- The first of two allocations is freed, then the second, and the block is filled again. -/
theorem live_allocations_apart_refilled :
    ∃ s, blockCounts.Reachable (fun s action => Supplied s action ∧ Blank s action) s ∧
      s.allocations = [(192, 30), (80, 100), (8224, 4000)] ∧ ∃ nodes, Separate s nodes := by
  have run : (blockCounts.execute (fun s action => Supplied s action ∧ Blank s action) sample
      [.malloc 9 100 refusal refusal, .malloc 9 4000 ⟨0, 8192, ⟨1, 2, 0, 4, 5⟩⟩ refusal,
        .malloc 9 200 refusal refusal, .freeMemory 9 80, .freeMemory 9 192,
        .malloc 9 100 refusal refusal, .malloc 9 30 refusal refusal]).map (·.allocations) =
      some [(192, 30), (80, 100), (8224, 4000)] := by decide +kernel
  obtain ⟨s, reached, ends⟩ := System.Reachable.of_replay sample_single run
  exact ⟨s, reached, ends, live_allocations_apart reached⟩

end Runs

end TinyNetwork.BlockCounts
