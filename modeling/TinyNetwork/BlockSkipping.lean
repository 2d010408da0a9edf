import TinyNetwork.BlockCounts

/-! The blocks a memory pool no longer scans. A scan for room starts at `current_`, and the
walk that links a new block counts a failure of every block on its way and moves `current_`
behind each that had five before. What stands in front has failed five times as long as the
counts do not increase along the walk. `freeMemory` clears a count and goes back to the first
block: a block with five failures behind the cleared one then takes it along. -/
namespace TinyNetwork.BlockSkipping
open MachineWord Transition LinkedList MemoryPool BlockCounts
open SmallAllocation hiding Action Supplied next

/-- The blocks a walk from `cur` counts a failure of: all but the last. -/
def walked : ℕ → (ℕ → SmallNode) → ℕ → List ℕ
  | 0, _, _ => []
  | fuel + 1, small, cur =>
    if (small cur).next_ = 0 then [] else cur :: walked fuel small (small cur).next_

def Fifth (small : ℕ → SmallNode) (a : ℕ) : Prop :=
  4 ≤ (small a).failed_ % 2 ^ 32 ∧ (small a).failed_ % 2 ^ 32 < 2 ^ 32 - 1

instance (small : ℕ → SmallNode) (a : ℕ) : Decidable (Fifth small a) := by
  unfold Fifth
  infer_instance

/-- A block at or before one with five failures has four. -/
def Declining (small : ℕ → SmallNode) : List ℕ → Prop
  | [] => True
  | a :: rest =>
    ((∃ b ∈ a :: rest, 5 ≤ (small b).failed_) → Fifth small a) ∧ Declining small rest

instance decidable (small : ℕ → SmallNode) : (l : List ℕ) → Decidable (Declining small l)
  | [] => isTrue trivial
  | _ :: rest =>
    have := decidable small rest
    inferInstanceAs (Decidable (_ ∧ _))

variable {small small' : ℕ → SmallNode} {fuel cur current current' last : ℕ} {nodes : List ℕ}

section Walk

theorem declining_of_fewer {l : List ℕ} (fewer : ∀ d ∈ l, (small d).failed_ < 5) :
    Declining small l := by
  induction l with
  | nil => trivial
  | cons d l ih =>
    refine ⟨fun ⟨b, mem, many⟩ => absurd many (Nat.not_le_of_lt (fewer b mem)), ih fun b hb => ?_⟩
    exact fewer b (List.mem_cons_of_mem d hb)

/-- The last block with five failures decides: what is in front of it has to have four. -/
theorem declining_iff {pre post : List ℕ} {c : ℕ} (full : 5 ≤ (small c).failed_)
    (fewer : ∀ d ∈ post, (small d).failed_ < 5) :
    Declining small (pre ++ c :: post) ↔
      ∀ b ∈ pre ++ [c], Fifth small b := by
  induction pre with
  | nil =>
    simp only [List.nil_append, List.mem_singleton, forall_eq, Declining,
      declining_of_fewer fewer, and_true]
    exact ⟨fun h => h ⟨c, List.mem_cons_self, full⟩, fun h _ => h⟩
  | cons a pre ih =>
    simp only [List.cons_append, List.forall_mem_cons, Declining, ih]
    refine and_congr_left fun _ => ⟨fun h => h ⟨c, by simp, full⟩, fun h _ => h⟩

theorem fifth_iff {a : ℕ} : Fifth small a ↔ 5 ≤ increment (small a).failed_ := by
  unfold Fifth increment
  omega

theorem walked_congr (chain : Linked small cur nodes) (start : cur ≠ 0)
    (same : ∀ a ∈ nodes, (small' a).next_ = (small a).next_) :
    walked fuel small' cur = walked fuel small cur := by
  induction fuel generalizing cur nodes with
  | zero => rfl
  | succ fuel ih =>
    obtain ⟨rest, rfl⟩ := chain.exists_cons start
    rw [walked, walked, same cur List.mem_cons_self]
    by_cases ends : (small cur).next_ = 0
    · rw [if_pos ends, if_pos ends]
    · rw [if_neg ends, if_neg ends,
        ih chain.2.2 ends fun a ha => same a (List.mem_cons_of_mem cur ha)]

def Moved (small : ℕ → SmallNode) (w : List ℕ) (last current current' : ℕ) : Prop :=
  (current' = current ∧ ∀ b ∈ w, (small b).failed_ < 5) ∨
    ∃ pre c post rest, w = pre ++ c :: post ∧ post ++ [last] = current' :: rest ∧
      5 ≤ (small c).failed_ ∧ ∀ d ∈ post, (small d).failed_ < 5

theorem Moved.congr {w : List ℕ} (h : Moved small w last current current')
    (same : ∀ b ∈ w, (small' b).failed_ = (small b).failed_) :
    Moved small' w last current current' := by
  rcases h with ⟨stays, fewer⟩ | ⟨pre, c, post, rest, rfl, behind, full, fewer⟩
  · exact .inl ⟨stays, fun b hb => by rw [same b hb]; exact fewer b hb⟩
  · refine .inr ⟨pre, c, post, rest, rfl, behind, ?_, fun d hd => ?_⟩
    · rwa [same c (by simp)]
    · rw [same d (by simp [hd])]
      exact fewer d hd

theorem Moved.cons {w rest : List ℕ} {next : ℕ}
    (h : Moved small w last (if 5 ≤ (small cur).failed_ then next else current) current')
    (behind : w ++ [last] = next :: rest) : Moved small (cur :: w) last current current' := by
  rcases h with ⟨stays, fewer⟩ | ⟨pre, c, post, rest, rfl, behind, full, fewer⟩
  · by_cases full : 5 ≤ (small cur).failed_
    · rw [if_pos full] at stays
      exact .inr ⟨[], cur, w, rest, rfl, by rw [behind, stays], full, fewer⟩
    · rw [if_neg full] at stays
      exact .inl ⟨stays, List.forall_mem_cons.mpr ⟨Nat.lt_of_not_le full, fewer⟩⟩
  · exact .inr ⟨cur :: pre, c, post, rest, rfl, behind, full, fewer⟩

theorem skip_walk (chain : Linked small cur nodes) (start : cur ≠ 0)
    (h : skip fuel small current cur = some (small', current', last)) :
    nodes = walked fuel small cur ++ [last] ∧
      (∀ b ∈ walked fuel small cur, (small' b).failed_ = increment (small b).failed_) ∧
      (∀ b, b ∉ walked fuel small cur → small' b = small b) ∧
      Moved small (walked fuel small cur) last current current' := by
  induction fuel generalizing small current cur nodes with
  | zero => cases h
  | succ fuel ih =>
    have once := chain.nodup
    obtain ⟨rest, rfl⟩ := chain.exists_cons start
    have tail := chain.2.2
    simp only [skip] at h
    rw [walked]
    by_cases ends : (small cur).next_ = 0
    · rw [if_pos ends] at h ⊢
      cases h
      have none : rest = [] := tail.unique (chain_nil.mpr ends)
      exact ⟨by rw [none]; rfl, by simp, fun _ _ => rfl, .inl ⟨rfl, by simp⟩⟩
    · rw [if_neg ends] at h ⊢
      obtain ⟨others, rfl⟩ := tail.exists_cons ends
      have layout := sameLayout_failed small cur (increment (small cur).failed_)
      obtain ⟨counted, first⟩ : ∃ counted, counted = Function.update small cur
          { small cur with failed_ := increment (small cur).failed_ } := ⟨_, rfl⟩
      rw [← first] at h layout
      obtain ⟨split, counts, kept, moved⟩ := ih (layout.linked tail) ends h
      rw [walked_congr tail ends fun a _ => (layout a).2.2] at split counts kept moved
      have apart : cur ∉ walked fuel small (small cur).next_ := fun mem =>
        (List.nodup_cons.mp once).1 (split ▸ List.mem_append_left _ mem)
      have same : ∀ b, b ≠ cur → counted b = small b := fun b other => by
        rw [first, Function.update_of_ne other]
      have old : ∀ b ∈ walked fuel small (small cur).next_, counted b = small b := fun b hb =>
        same b (ne_of_mem_of_not_mem hb apart)
      have before := moved.congr fun b hb => by rw [old b hb]
      refine ⟨by rw [split]; rfl, List.forall_mem_cons.mpr ⟨?_, fun b hb => ?_⟩, fun b hb => ?_,
        before.cons split.symm⟩
      · rw [kept cur apart, first, Function.update_self]
      · rw [counts b hb, old b hb]
      · obtain ⟨other, later⟩ := List.ne_and_not_mem_of_not_mem_cons hb
        rw [kept b later, same b other]

def Spent (small : ℕ → SmallNode) (nodes : List ℕ) (current : ℕ) : Prop :=
  ∀ front rest, nodes = front ++ current :: rest → ∀ b ∈ front, 5 ≤ (small b).failed_

variable {s s' : MemoryPool} {os : Memalign} {size p : ℕ}

theorem spent_iff {front rest : List ℕ} (once : (front ++ current :: rest).Nodup) :
    Spent small (front ++ current :: rest) current ↔ ∀ b ∈ front, 5 ≤ (small b).failed_ := by
  obtain ⟨-, behind, apart⟩ := List.nodup_append.mp once
  have outside : current ∉ front := fun mem => apart _ mem _ List.mem_cons_self rfl
  refine ⟨fun h => h front rest rfl, fun h front' rest' split => ?_⟩
  obtain ⟨same, -, -⟩ :=
    (List.append_cons_inj_of_notMem outside (List.nodup_cons.mp behind).1).mp split
  rwa [← same]

theorem spent_head (h : WellFormed s nodes) : Spent small nodes s.pool.head_ := by
  have once := nodes_nodup h
  obtain ⟨rest, rfl⟩ := h.chain.exists_cons (h.chain.ne_null (head_mem h))
  have first : s.pool.head_ :: rest = [] ++ s.pool.head_ :: rest := rfl
  rw [first] at once ⊢
  exact (spent_iff once).mpr (by simp)

theorem spent_congr (same : ∀ b ∈ nodes, (small' b).failed_ = (small b).failed_)
    (h : Spent small nodes current) : Spent small' nodes current := by
  intro front rest split b hb
  rw [same b (split ▸ List.mem_append_left _ hb)]
  exact h front rest split b hb

structure Walked (s s' : MemoryPool) (nodes front w : List ℕ) (last : ℕ) : Prop where
  split : nodes = front ++ (w ++ [last])
  starts : ∃ rest, w ++ [last] = s.pool.current_ :: rest
  counted : ∀ b ∈ w, (s'.small b).failed_ = increment (s.small b).failed_
  kept : ∀ b ∈ front, (s'.small b).failed_ = (s.small b).failed_
  moved : Moved s.small w last s.pool.current_ s'.pool.current_

theorem mallocSmallNode_walk (h : WellFormed s nodes) (fresh : Fresh s os)
    (success : os.ret = 0) (hm : s.mallocSmallNode fuel size os = some (p, s')) :
    ∃ front last, Walked s s' nodes front (walked fuel s.small s.pool.current_) last := by
  have absent := fresh_not_mem h fresh success
  have start : s.pool.current_ ≠ 0 := h.chain.ne_null h.current
  have old : ∀ a ∈ nodes, Function.update s.small os.memptr (header size os) a = s.small a :=
    fun a ha => Function.update_of_ne (ne_of_mem_of_not_mem ha absent) _ _
  rw [mallocSmallNode_success success] at hm
  obtain ⟨⟨small, current, last⟩, walk, result⟩ := Option.map_eq_some_iff.mp hm
  obtain ⟨-, rfl⟩ := Prod.mk.inj result
  obtain ⟨front, rest, split, tail⟩ := h.chain.of_mem h.current
  have links : ∀ a ∈ s.pool.current_ :: rest,
      (Function.update s.small os.memptr (header size os) a).next_ = (s.small a).next_ :=
    fun a ha => by rw [old a (split ▸ List.mem_append_right _ ha)]
  obtain ⟨all, counted, kept, moved⟩ := skip_walk (tail.congr links) start walk
  rw [walked_congr tail start links] at all counted kept moved
  rw [all] at split
  have mem : ∀ b ∈ walked fuel s.small s.pool.current_, b ∈ nodes := fun b hb =>
    split ▸ List.mem_append_right _ (List.mem_append_left _ hb)
  have linked : ∀ b, (Function.update small last { small last with next_ := os.memptr } b).failed_ =
      (small b).failed_ := update_field SmallNode.failed_ (by rfl)
  refine ⟨front, last, split, ⟨rest, all.symm⟩, fun b hb => ?_, fun b hb => ?_,
    moved.congr fun b hb => by rw [old b (mem b hb)]⟩
  · rw [linked, counted b hb, old b (mem b hb)]
  · have once := split ▸ nodes_nodup h
    have apart : b ∉ walked fuel s.small s.pool.current_ := fun also =>
      (List.nodup_append.mp once).2.2 b hb b (List.mem_append_left _ also) rfl
    rw [linked, kept b apart, old b (split ▸ List.mem_append_left _ hb)]

/-- A new block leaves five failures in front of `current_` exactly when the counts did not
increase along the walk. -/
theorem Walked.spent_iff {front w : List ℕ} {new : ℕ} (h : Walked s s' nodes front w last)
    (once : (nodes ++ [new]).Nodup) (before : Spent s.small nodes s.pool.current_) :
    Spent s'.small (nodes ++ [new]) s'.pool.current_ ↔ Declining s.small w := by
  have split := h.split
  obtain ⟨rest, starts⟩ := h.starts
  have spent : ∀ b ∈ front, 5 ≤ (s'.small b).failed_ := fun b hb => by
    rw [h.kept b hb]
    exact before front rest (by rw [split, starts]) b hb
  rcases h.moved with ⟨stays, fewer⟩ | ⟨pre, c, post, rest, at_, behind, full, fewer⟩
  · have shape : nodes ++ [new] = front ++ s'.pool.current_ :: (rest ++ [new]) := by
      rw [split, starts, stays, List.append_assoc, List.cons_append]
    rw [shape] at once ⊢
    rw [BlockSkipping.spent_iff once]
    exact iff_of_true spent (declining_of_fewer fewer)
  · have shape : nodes ++ [new] =
        (front ++ (pre ++ [c])) ++ s'.pool.current_ :: (rest ++ [new]) := by
      have later : post ++ [last, new] = s'.pool.current_ :: (rest ++ [new]) := by
        rw [← List.cons_append, ← behind, List.append_assoc]
        rfl
      rw [split, at_]
      simpa using later
    rw [shape] at once ⊢
    rw [BlockSkipping.spent_iff once, at_, declining_iff full fewer, List.forall_mem_append]
    refine (and_iff_right spent).trans (forall₂_congr fun b hb => ?_)
    have mem : b ∈ w := by
      rw [at_]
      simpa using Or.imp_right Or.inl (List.mem_append.mp hb)
    rw [fifth_iff, h.counted b mem]

end Walk

section Runs

/-- The blocks in front of `current_` have failed five times, and a small allocation does not
pass over a block that has room and has failed less often: it is carved from that block or from
one in front of it. -/
structure Fair (s : MemoryPool) (nodes : List ℕ) : Prop where
  wellFormed : WellFormed s nodes
  spent : Spent s.small nodes s.pool.current_
  carved : ∀ fuel size os nested p m, 0 < size → size ≤ PAGE_SIZE - SmallNode.size →
    s.malloc fuel size os nested = some (p, m) → ∀ b ∈ nodes, (s.small b).failed_ < 5 →
      mp_align_ptr (s.small b).last_ + size ≤ (s.small b).end_ →
        ∃ a ∈ nodes, (a = b ∨ [a, b].Sublist nodes) ∧ p = mp_align_ptr (s.small a).last_

def Zeroed (_ : State) : Action → Prop
  | .malloc _ _ os _ => os.ret = 0 → os.content.quote_ = 0 ∧ os.content.failed_ = 0
  | _ => True

/-- Where a new block is linked, the counts do not increase along the walk. -/
def Declines (s : State) : Action → Prop
  | .malloc fuel size os _ =>
    0 < size → fit fuel s.memory.small s.memory.pool.current_ size = some none → os.ret = 0 →
      Declining s.memory.small (walked fuel s.memory.small s.memory.pool.current_)
  | _ => True

variable {s t : State} {action : Action}

theorem Spent.malloc {size p : ℕ} {os nested : Memalign} {m : MemoryPool}
    (h : WellFormed s.memory nodes) (before : Spent s.memory.small nodes s.memory.pool.current_)
    (hsize : size ≤ PAGE_SIZE - SmallNode.size) (fresh : Fresh s.memory os)
    (declines : Declines s (.malloc fuel size os nested))
    (hm : s.memory.malloc fuel size os nested = some (p, m)) :
    ∃ nodes', WellFormed m nodes' ∧ Spent m.small nodes' m.pool.current_ := by
  by_cases none : size = 0
  · rw [MemoryPool.malloc, if_pos none] at hm
    obtain ⟨-, rfl⟩ := Prod.mk.inj (Option.some.inj hm)
    exact ⟨nodes, h, before⟩
  · have some_ : 0 < size := Nat.pos_of_ne_zero none
    rw [malloc_small ⟨some_, hsize⟩] at hm
    rcases mallocSmall_cases h hm with
      ⟨a, ha, fits, rfl, rfl⟩ | ⟨scan, ⟨success, result⟩ | ⟨-, null⟩⟩
    · refine ⟨nodes, (carved_fit h ha fits _).wellFormed, spent_congr (fun b _ => ?_) before⟩
      exact update_field SmallNode.failed_ (by rfl) b
    · have wellFormed := (carved_new h fresh hsize success result).wellFormed
      obtain ⟨front, last, walked⟩ := mallocSmallNode_walk h fresh success result
      exact ⟨_, wellFormed, (walked.spent_iff (nodes_nodup wellFormed) before).mpr
        (declines some_ scan success)⟩
    · obtain ⟨-, rfl⟩ := null
      exact ⟨nodes, h, before⟩

theorem release_current (m : MemoryPool) (a : ℕ) :
    (m.release a).pool.current_ = m.pool.head_ ∨
      (m.release a).pool.current_ = m.pool.current_ ∧
        ∀ b, ((m.release a).small b).failed_ = (m.small b).failed_ := by
  obtain ⟨quote, counted⟩ : ∃ quote, quote = decrement (m.small a).quote_ := ⟨_, rfl⟩
  simp only [release, ← counted]
  by_cases zero : quote = 0
  · rw [if_pos zero]
    exact .inl rfl
  · rw [if_neg zero]
    exact .inr ⟨rfl, update_field SmallNode.failed_ (by rfl)⟩

theorem Spent.freeMemory {p : ℕ} {m : MemoryPool} (h : Tallied s nodes)
    (before : Spent s.memory.small nodes s.memory.pool.current_)
    (live : p ∈ s.allocations.map Prod.fst) (hm : s.memory.freeMemory fuel p = some m) :
    WellFormed m nodes ∧ Spent m.small nodes m.pool.current_ := by
  obtain ⟨r, hr, rfl⟩ := List.mem_map.mp live
  obtain ⟨a, ha, -, result⟩ := freeMemory_releases h hr hm
  rw [result]
  refine ⟨(release_spec h.placed.wellFormed ha).wellFormed, ?_⟩
  rcases release_current s.memory a with first | ⟨stays, same⟩
  · rw [first]
    exact spent_head h.placed.wellFormed
  · rw [stays]
    exact spent_congr (fun b _ => same b) before

theorem Spent.resetPool {m : MemoryPool} (h : WellFormed s.memory nodes)
    (hm : s.memory.resetPool fuel = some m) :
    WellFormed m nodes ∧ Spent m.small nodes m.pool.current_ := by
  refine ⟨resetPool_spec h hm, ?_⟩
  obtain ⟨t, freed, rest⟩ := Option.bind_eq_some_iff.mp hm
  obtain ⟨small, -, rfl⟩ := Option.map_eq_some_iff.mp rest
  obtain ⟨records, listed, -⟩ := h.records
  obtain ⟨shape, -⟩ := freeLarge_spec listed freed
  rw [shape]
  change Spent small nodes s.memory.pool.head_
  exact spent_head h

theorem Spent.next (h : Tallied s nodes)
    (before : Spent s.memory.small nodes s.memory.pool.current_) (supplied : Supplied s action)
    (declines : Declines s action) (hn : BlockCounts.next s action = some t) :
    ∃ nodes', WellFormed t.memory nodes' ∧ Spent t.memory.small nodes' t.memory.pool.current_ := by
  cases action with
  | malloc fuel size os nested =>
    obtain ⟨hsize, hn⟩ := Option.ite_none_right_eq_some.mp hn
    obtain ⟨⟨p, m⟩, result, rfl⟩ := Option.map_eq_some_iff.mp hn
    exact before.malloc h.placed.wellFormed hsize supplied declines result
  | freeMemory fuel p =>
    obtain ⟨live, hn⟩ := Option.ite_none_right_eq_some.mp hn
    obtain ⟨m, result, rfl⟩ := Option.map_eq_some_iff.mp hn
    exact ⟨nodes, before.freeMemory h live result⟩
  | resetPool fuel =>
    obtain ⟨m, result, rfl⟩ := Option.map_eq_some_iff.mp hn
    exact ⟨nodes, Spent.resetPool h.placed.wellFormed result⟩

theorem blank_of_zeroed (h : Zeroed s action) : Blank s action := by
  cases action with
  | malloc fuel size os nested =>
    intro _ _ success
    rw [(h success).1]
    exact Nat.zero_mod _
  | freeMemory fuel p => trivial
  | resetPool fuel => trivial

theorem Spent.fair {m : MemoryPool} (h : WellFormed m nodes)
    (before : Spent m.small nodes m.pool.current_) : Fair m nodes := by
  refine ⟨h, before, fun fuel size os nested p m' some_ hsize hm b hb fewer room => ?_⟩
  obtain ⟨front, rest, split, tail⟩ := h.chain.of_mem h.current
  have mem : b ∈ m.pool.current_ :: rest := by
    rw [split] at hb
    refine (List.mem_append.mp hb).resolve_left fun passed => ?_
    exact absurd (before front rest split b passed) (Nat.not_le_of_lt fewer)
  have fits : size ≤ sizeSub (m.small b).end_ (mp_align_ptr (m.small b).last_) := by
    rw [(h.laid b hb).align.2.2.1]
    omega
  rw [malloc_small ⟨some_, hsize⟩] at hm
  obtain ⟨found, scan, hm⟩ := Option.bind_eq_some_iff.mp hm
  rw [fit_eq_search] at scan
  cases found with
  | none => exact absurd fits ((tail.search_spec scan).2 rfl b mem)
  | some a =>
    obtain ⟨start, -⟩ := Prod.mk.inj (Option.some.inj hm)
    obtain ⟨passed, rest', split', fails⟩ := tail.search_first scan
    have whole : nodes = (front ++ passed) ++ a :: rest' := by
      rw [split, split', List.append_assoc]
    have later : b ∈ a :: rest' := by
      rw [split'] at mem
      exact (List.mem_append.mp mem).resolve_left fun passed => fails b passed fits
    refine ⟨a, by simp [whole], ?_, start.symm⟩
    rcases List.mem_cons.mp later with same | behind
    · exact .inl same.symm
    · refine .inr (whole ▸ List.Sublist.trans ?_ (List.sublist_append_right _ _))
      exact (List.singleton_sublist.mpr behind).cons_cons a

/-- As long as the counts do not increase along the walks, only blocks with five failures are
skipped. -/
theorem skips_spent {s : State} (h : blockCounts.Reachable
      (fun s action => (Supplied s action ∧ Zeroed s action) ∧ Declines s action) s) :
    ∃ nodes, Fair s.memory nodes := by
  have spent : ∃ nodes, Tallied s nodes ∧
      Spent s.memory.small nodes s.memory.pool.current_ := by
    refine h.invariant (P := fun s => ∃ nodes, Tallied s nodes ∧
      Spent s.memory.small nodes s.memory.pool.current_) ?_ ?_
    · intro s hs
      have first : s.memory.pool.current_ = s.memory.pool.head_ :=
        List.mem_singleton.mp hs.2.1.current
      refine ⟨_, Tallied.initial hs, ?_⟩
      rw [first]
      exact spent_head hs.2.1
    · rintro s action t ⟨nodes, hs, before⟩ ⟨⟨supplied, zeroed⟩, declines⟩ hn
      obtain ⟨nodes', tallied⟩ := hs.next supplied (blank_of_zeroed zeroed) hn
      obtain ⟨nodes'', wellFormed, spent⟩ := before.next hs supplied declines hn
      rw [wellFormed.chain.unique tallied.placed.wellFormed.chain] at spent
      exact ⟨nodes', tallied, spent⟩
  obtain ⟨nodes, tallied, before⟩ := spent
  exact ⟨nodes, before.fair tallied.placed.wellFormed⟩

instance (s : State) : (action : Action) → Decidable (Zeroed s action)
  | .malloc _ _ os _ =>
    inferInstanceAs (Decidable (os.ret = 0 → os.content.quote_ = 0 ∧ os.content.failed_ = 0))
  | .freeMemory _ _ => isTrue trivial
  | .resetPool _ => isTrue trivial

instance (s : State) : (action : Action) → Decidable (Declines s action)
  | .malloc fuel size os _ => inferInstanceAs (Decidable (0 < size →
      fit fuel s.memory.small s.memory.pool.current_ size = some none → os.ret = 0 →
        Declining s.memory.small (walked fuel s.memory.small s.memory.pool.current_)))
  | .freeMemory _ _ => isTrue trivial
  | .resetPool _ => isTrue trivial

def page (p : ℕ) : Memalign := ⟨0, p, ⟨0, 0, 0, 0, 0⟩⟩

def filling : List Action :=
  .malloc 12 4000 refusal refusal ::
    [8192, 16384, 24576, 32768, 40960, 49152, 57344].map fun p => .malloc 12 4000 (page p) refusal

theorem skips_spent_filling : ∃ s, blockCounts.Reachable
      (fun s action => (Supplied s action ∧ Zeroed s action) ∧ Declines s action) s ∧
    (s.memory.pool.head_, s.memory.pool.current_) = (40, 8192) ∧
      ∃ nodes, Fair s.memory nodes := by
  have run : (blockCounts.execute
      (fun s action => (Supplied s action ∧ Zeroed s action) ∧ Declines s action) sample
      filling).map (fun s => (s.memory.pool.head_, s.memory.pool.current_)) =
      some (40, 8192) := by decide +kernel
  obtain ⟨s, reached, ends⟩ := System.Reachable.of_replay sample_single run
  exact ⟨s, reached, ends, skips_spent reached⟩

/-- The first block is emptied, filled with 100 bytes and has failed once when the block behind
it, with five failures, takes `current_` along. There are 3920 bytes in it, and a request for 100
gets a new block. -/
theorem freed_block_skipped :
    ∃ s, blockCounts.Reachable (fun s action => Supplied s action ∧ Zeroed s action) s ∧
      (¬∃ nodes, Fair s.memory nodes) ∧ (s.memory.small 40).failed_ = 1 ∧
        (s.memory.small 40).end_ - mp_align_ptr (s.memory.small 40).last_ = 3920 ∧
          (s.memory.malloc 12 100 (page 73728) refusal).map Prod.fst = some 73760 := by
  have run : (blockCounts.execute (fun s action => Supplied s action ∧ Zeroed s action) sample
      (filling ++ [.freeMemory 12 80, .malloc 12 100 refusal refusal,
        .malloc 12 4000 (page 65536) refusal])).map (fun s =>
        ((s.memory.pool.head_, (s.memory.small 40).next_, (s.memory.small 8192).next_,
          s.memory.pool.current_), (s.memory.small 40).failed_,
            (s.memory.small 40).end_ - mp_align_ptr (s.memory.small 40).last_,
              (s.memory.malloc 12 100 (page 73728) refusal).map Prod.fst)) =
      some ((40, 8192, 16384, 16384), 1, 3920, some 73760) := by decide +kernel
  obtain ⟨s, reached, ends⟩ := System.Reachable.of_replay sample_single run
  obtain ⟨⟨head, first, second, current⟩, failed, room, start⟩ := by
    simpa only [Prod.mk.injEq] using ends
  refine ⟨s, reached, ?_, failed, room, start⟩
  rintro ⟨nodes, fair⟩
  have chain := fair.wellFormed.chain
  rw [head] at chain
  obtain ⟨rest, rfl⟩ := chain.exists_cons (by decide)
  have tail : Linked s.memory.small 8192 rest := first ▸ chain.2.2
  obtain ⟨rest, rfl⟩ := tail.exists_cons (by decide)
  have tail : Linked s.memory.small 16384 rest := second ▸ tail.2.2
  obtain ⟨rest, rfl⟩ := tail.exists_cons (by decide)
  have skipped := fair.spent [40, 8192] rest (by rw [current]; rfl) 40 (by simp)
  rw [failed] at skipped
  exact absurd skipped (by decide)

end Runs

end TinyNetwork.BlockSkipping
