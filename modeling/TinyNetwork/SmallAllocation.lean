import TinyNetwork.MemoryPool
import Mathlib.Data.List.Pairwise

/-! Small allocations of a memory pool. A well-formed pool is a chain of blocks of one
page, each with its header in front and `last_` between the header and the end of the
page; the page is aligned, so aligning `last_` never passes its end and the mixed
comparison of the fit test is exact. What is handed out lies below the `last_` of its
block and above what was handed out there before. -/
namespace TinyNetwork.SmallAllocation
open MachineWord Transition LinkedList MemoryPool

def Apart (p n q m : ℕ) : Prop := p + n ≤ q ∨ q + m ≤ p

instance (p n q m : ℕ) : Decidable (Apart p n q m) := by
  unfold Apart
  infer_instance

theorem Apart.symm {p n q m : ℕ} (h : Apart p n q m) : Apart q m p n := Or.symm h

/-- The page of a header: the header of the first block stands behind the `Pool`. -/
def blockOf (s : MemoryPool) (a : ℕ) : ℕ := if a = s.pool.head_ then s.pool_ else a

theorem blockOf_head (s : MemoryPool) : blockOf s s.pool.head_ = s.pool_ := if_pos rfl

structure Laid (s : MemoryPool) (a : ℕ) : Prop where
  aligned : 16 ∣ blockOf s a
  bound : blockOf s a + PAGE_SIZE < 2 ^ 64
  ends : (s.small a).end_ = blockOf s a + PAGE_SIZE
  starts : a + SmallNode.size ≤ (s.small a).last_
  within : (s.small a).last_ ≤ (s.small a).end_

/-- The records of large blocks are a finite list, and each is freed or names a live block of
the OS other than the pages. -/
def Records (s : MemoryPool) (nodes : List ℕ) : Prop :=
  ∃ records, Chain 0 (fun r => (s.large r).next_) s.pool.largeList_ records ∧
    ∀ r ∈ records, (∀ a ∈ nodes, (s.large r).address_ ≠ blockOf s a) ∧
      ((s.large r).address_ = 0 ∨ ∃ n, 0 < n ∧ ((s.large r).address_, n) ∈ s.live)

/-- `nodes` are the headers in list order, and their pages separate live blocks of the
OS. -/
structure WellFormed (s : MemoryPool) (nodes : List ℕ) : Prop where
  chain : Chain 0 (fun a => (s.small a).next_) s.pool.head_ nodes
  head : s.pool.head_ = s.pool_ + Pool.size
  current : s.pool.current_ ∈ nodes
  laid : ∀ a ∈ nodes, Laid s a
  apart : nodes.Pairwise fun a b => Apart (blockOf s a) PAGE_SIZE (blockOf s b) PAGE_SIZE
  live : ∀ a ∈ nodes, (blockOf s a, PAGE_SIZE) ∈ s.live
  records : Records s nodes

def Fresh (s : MemoryPool) (os : Memalign) : Prop :=
  os.ret = 0 → 16 ∣ os.memptr ∧ 0 < os.memptr ∧ os.memptr + PAGE_SIZE < 2 ^ 64 ∧
    ∀ block ∈ s.live, Apart os.memptr PAGE_SIZE block.1 block.2

instance (s : MemoryPool) (os : Memalign) : Decidable (Fresh s os) := by
  unfold Fresh
  infer_instance

variable {s s' : MemoryPool} {nodes : List ℕ} {fuel size p : ℕ} {os : Memalign}

section Layout

theorem blockOf_le (h : WellFormed s nodes) (a : ℕ) : blockOf s a ≤ a := by
  unfold blockOf
  split_ifs with first
  · rw [first, h.head]
    exact Nat.le_add_right _ _
  · exact Nat.le_refl a

theorem nodes_nodup (h : WellFormed s nodes) : nodes.Nodup := h.chain.nodup

theorem pages_apart (h : WellFormed s nodes) {a b : ℕ} (ha : a ∈ nodes) (hb : b ∈ nodes)
    (other : a ≠ b) : Apart (blockOf s a) PAGE_SIZE (blockOf s b) PAGE_SIZE :=
  have : Std.Symm fun a b => Apart (blockOf s a) PAGE_SIZE (blockOf s b) PAGE_SIZE :=
    ⟨fun _ _ => Apart.symm⟩
  h.apart.forall ha hb other

theorem Laid.of_same {a : ℕ} (h : Laid s a) (page : blockOf s' a = blockOf s a)
    (ends : (s'.small a).end_ = (s.small a).end_) (last : (s'.small a).last_ = (s.small a).last_) :
    Laid s' a :=
  ⟨page ▸ h.aligned, page ▸ h.bound, by rw [ends, page, h.ends], last ▸ h.starts,
    by rw [ends, last]; exact h.within⟩

theorem Laid.align {a : ℕ} (h : Laid s a) :
    16 ∣ mp_align_ptr (s.small a).last_ ∧
      (s.small a).last_ ≤ mp_align_ptr (s.small a).last_ ∧
      sizeSub (s.small a).end_ (mp_align_ptr (s.small a).last_) =
        (s.small a).end_ - mp_align_ptr (s.small a).last_ ∧
      mp_align_ptr (s.small a).last_ ≤ (s.small a).end_ := by
  obtain ⟨aligned, bound, ends, -, within⟩ := h
  unfold PAGE_SIZE at bound ends
  have rounded : mp_align_ptr (s.small a).last_ = ((s.small a).last_ + 15) / 16 * 16 :=
    mp_align_ptr_eq (by omega)
  have stays : mp_align_ptr (s.small a).last_ ≤ (s.small a).end_ := by omega
  refine ⟨by omega, by omega, sizeSub_of_le stays (by omega), stays⟩

theorem Laid.carve {a : ℕ} (h : Laid s a)
    (fits : size ≤ sizeSub (s.small a).end_ (mp_align_ptr (s.small a).last_)) :
    sizeAdd (mp_align_ptr (s.small a).last_) size = mp_align_ptr (s.small a).last_ + size ∧
      mp_align_ptr (s.small a).last_ + size ≤ (s.small a).end_ := by
  obtain ⟨-, -, room, stays⟩ := h.align
  have bound := h.bound
  have ends := h.ends
  rw [room] at fits
  have inside : mp_align_ptr (s.small a).last_ + size ≤ (s.small a).end_ := by omega
  exact ⟨sizeAdd_of_lt (by omega), inside⟩

theorem WellFormed.update (h : WellFormed s nodes)
    (pool : s'.pool_ = s.pool_ ∧ s'.pool.head_ = s.pool.head_)
    (current : s'.pool.current_ ∈ nodes)
    (same : ∀ a ∈ nodes, (s'.small a).next_ = (s.small a).next_ ∧
      (s'.small a).end_ = (s.small a).end_)
    (last : ∀ a ∈ nodes, a + SmallNode.size ≤ (s'.small a).last_ ∧
      (s'.small a).last_ ≤ (s.small a).end_)
    (live : ∀ a ∈ nodes, (blockOf s a, PAGE_SIZE) ∈ s'.live)
    (records : Records s' nodes) : WellFormed s' nodes := by
  obtain ⟨page, head⟩ := pool
  have block : ∀ a, blockOf s' a = blockOf s a := fun a => by rw [blockOf, page, head, blockOf]
  refine ⟨?_, ?_, current, fun a ha => ?_, ?_, ?_, records⟩
  · rw [head]
    exact h.chain.congr fun a ha => (same a ha).1
  · rw [head, page]
    exact h.head
  · have before := h.laid a ha
    exact ⟨block a ▸ before.aligned, block a ▸ before.bound,
      by rw [(same a ha).2, block, before.ends], (last a ha).1, by
        rw [(same a ha).2]
        exact (last a ha).2⟩
  · simpa only [block] using h.apart
  · simpa only [block] using live

end Layout

section Walks
variable {small small' : ℕ → SmallNode} {cur : ℕ}

abbrev Linked (small : ℕ → SmallNode) (p : ℕ) (nodes : List ℕ) : Prop :=
  Chain 0 (fun a => (small a).next_) p nodes

theorem linked_current {head : ℕ} (chain : Linked small head nodes) (mem : cur ∈ nodes) :
    ∃ rest, Linked small cur (cur :: rest) ∧ (cur :: rest).length ≤ nodes.length := by
  obtain ⟨front, rest, rfl, tail⟩ := chain.of_mem mem
  refine ⟨rest, tail, ?_⟩
  rw [List.length_append]
  exact Nat.le_add_left _ _

theorem fit_eq_search : fit fuel small cur size =
    search 0 (fun a => (small a).next_)
      (fun a => size ≤ sizeSub (small a).end_ (mp_align_ptr (small a).last_)) fuel cur := by
  induction fuel generalizing cur with
  | zero => rfl
  | succ fuel ih => rw [fit, search, ih]

theorem fit_mem {found : Option ℕ} (chain : Linked small cur nodes)
    (h : fit fuel small cur size = some found) :
    ∀ a ∈ found, a ∈ nodes ∧ size ≤ sizeSub (small a).end_ (mp_align_ptr (small a).last_) := by
  rw [fit_eq_search] at h
  exact (chain.search_spec h).1

theorem fit_total (chain : Linked small cur nodes) (enough : nodes.length < fuel) :
    ∃ found, fit fuel small cur size = some found := by
  rw [fit_eq_search]
  exact chain.search_total enough

def SameLayout (small small' : ℕ → SmallNode) : Prop :=
  ∀ a, (small' a).end_ = (small a).end_ ∧ (small' a).last_ = (small a).last_ ∧
    (small' a).next_ = (small a).next_

theorem sameLayout_failed (small : ℕ → SmallNode) (a n : ℕ) :
    SameLayout small (Function.update small a { small a with failed_ := n }) := by
  intro b
  exact ⟨update_field SmallNode.end_ (by rfl) b, update_field SmallNode.last_ (by rfl) b,
    update_field SmallNode.next_ (by rfl) b⟩

theorem SameLayout.linked (h : SameLayout small small') (chain : Linked small cur nodes) :
    Linked small' cur nodes :=
  chain.congr fun a _ => (h a).2.2

theorem SameLayout.trans {small'' : ℕ → SmallNode} (h : SameLayout small small')
    (k : SameLayout small' small'') : SameLayout small small'' := fun a =>
  ⟨(k a).1.trans (h a).1, (k a).2.1.trans (h a).2.1, (k a).2.2.trans (h a).2.2⟩

/-- The walk ends at the last block, having changed failure counts only, and `current` has
moved to blocks of the list only. -/
theorem skip_spec {current current' last : ℕ} (chain : Linked small cur nodes)
    (start : cur ≠ 0) (h : skip fuel small current cur = some (small', current', last)) :
    SameLayout small small' ∧ (current' = current ∨ current' ∈ nodes) ∧
      ∃ front, nodes = front ++ [last] := by
  induction fuel generalizing small current cur nodes with
  | zero => cases h
  | succ fuel ih =>
    obtain ⟨rest, rfl⟩ := chain.exists_cons start
    have tail := chain.2.2
    simp only [skip] at h
    by_cases ends : (small cur).next_ = 0
    · rw [if_pos ends] at h
      cases h
      refine ⟨fun _ => ⟨rfl, rfl, rfl⟩, .inl rfl, [], ?_⟩
      cases rest with
      | nil => rfl
      | cons b rest => exact absurd (tail.1.symm.trans ends) tail.2.1
    · rw [if_neg ends] at h
      obtain ⟨others, rfl⟩ := tail.exists_cons ends
      have counted := sameLayout_failed small cur (increment (small cur).failed_)
      obtain ⟨same, moved, front, split⟩ := ih (counted.linked tail) ends h
      refine ⟨counted.trans same, ?_, cur :: front, by rw [split]; rfl⟩
      rcases moved with at_ | later
      · rw [at_]
        split_ifs
        · exact .inr (List.mem_cons_of_mem _ List.mem_cons_self)
        · exact .inl rfl
      · exact .inr (List.mem_cons_of_mem _ later)

theorem skip_quote {current current' last : ℕ}
    (h : skip fuel small current cur = some (small', current', last)) (a : ℕ) :
    (small' a).quote_ = (small a).quote_ := by
  induction fuel generalizing small current cur with
  | zero => cases h
  | succ fuel ih =>
    simp only [skip] at h
    split_ifs at h
    · cases h
      rfl
    all_goals
      rw [ih h]
      exact update_field SmallNode.quote_ (by rfl) a

theorem skip_total {current : ℕ} (chain : Linked small cur nodes) (start : cur ≠ 0)
    (enough : nodes.length ≤ fuel) : ∃ result, skip fuel small current cur = some result := by
  induction fuel generalizing small current cur nodes with
  | zero =>
    obtain ⟨rest, rfl⟩ := chain.exists_cons start
    simp at enough
  | succ fuel ih =>
    obtain ⟨rest, rfl⟩ := chain.exists_cons start
    have tail := chain.2.2
    simp only [skip]
    by_cases ends : (small cur).next_ = 0
    · exact ⟨_, if_pos ends⟩
    · rw [if_neg ends]
      have counted := sameLayout_failed small cur (increment (small cur).failed_)
      exact ih (counted.linked tail) ends (Nat.le_of_succ_le_succ enough)

theorem freeLarge_spec {node : ℕ} {records : List ℕ}
    (chain : Chain 0 (fun r => (s.large r).next_) node records)
    (h : freeLarge fuel s node = some s') :
    s' = { s with live := s'.live, freed := s'.freed } ∧
      ∀ block ∈ s.live, (∀ r ∈ records, (s.large r).address_ ≠ block.1) → block ∈ s'.live := by
  induction fuel generalizing s node records with
  | zero => cases h
  | succ fuel ih =>
    simp only [freeLarge] at h
    by_cases ends : node = 0
    · rw [if_pos ends] at h
      cases h
      exact ⟨rfl, fun _ hb _ => hb⟩
    · rw [if_neg ends] at h
      obtain ⟨rest, rfl⟩ := chain.exists_cons ends
      have tail := chain.2.2
      split_ifs at h with named
      · obtain ⟨shape, kept⟩ := ih (s := s.free _) tail h
        refine ⟨shape, fun block hb other => kept block ?_ fun r hr => ?_⟩
        · have stays : block.1 ≠ (s.large node).address_ := (other node List.mem_cons_self).symm
          simp [free, hb, stays]
        · exact other r (List.mem_cons_of_mem _ hr)
      · obtain ⟨shape, kept⟩ := ih tail h
        exact ⟨shape, fun block hb other => kept block hb fun r hr =>
          other r (List.mem_cons_of_mem _ hr)⟩

theorem freeLarge_total {node : ℕ} {records : List ℕ}
    (chain : Chain 0 (fun r => (s.large r).next_) node records)
    (enough : records.length < fuel) : ∃ s', freeLarge fuel s node = some s' := by
  induction records, fuel, enough using fuel_induction generalizing s node with
  | nil fuel => exact ⟨s, if_pos (chain_nil.mp chain)⟩
  | cons r rest fuel lasts ih =>
    obtain ⟨rfl, nonnull, tail⟩ := chain
    simp only [freeLarge, if_neg nonnull]
    split_ifs
    · exact ih (s := s.free _) tail
    · exact ih tail

theorem rewind_spec {node : ℕ} (chain : Linked small node nodes)
    (h : rewind fuel small node = some small') :
    (∀ a ∈ nodes, small' a =
      { small a with last_ := sizeAdd a SmallNode.size, failed_ := 0, quote_ := 0 }) ∧
      ∀ a, a ∉ nodes → small' a = small a := by
  induction fuel generalizing small node nodes with
  | zero => cases h
  | succ fuel ih =>
    simp only [rewind] at h
    by_cases ends : node = 0
    · rw [if_pos ends] at h
      cases h
      cases nodes with
      | nil => exact ⟨by simp, fun _ _ => rfl⟩
      | cons a rest => exact absurd (chain.1.symm.trans ends) chain.2.1
    · rw [if_neg ends] at h
      obtain ⟨rest, rfl⟩ := chain.exists_cons ends
      have apart := (List.nodup_cons.mp chain.nodup).1
      have others : ∀ a ∈ rest, a ≠ node := fun a ha => ne_of_mem_of_not_mem ha apart
      have tail : Linked (Function.update small node { small node with
          last_ := sizeAdd node SmallNode.size, failed_ := 0, quote_ := 0 })
          (small node).next_ rest :=
        chain.2.2.congr fun a ha => by rw [Function.update_of_ne (others a ha)]
      obtain ⟨rewound, away⟩ := ih tail h
      refine ⟨fun a ha => ?_, fun a ha => ?_⟩
      · rcases List.mem_cons.mp ha with rfl | later
        · rw [away a apart, Function.update_self]
        · rw [rewound a later, Function.update_of_ne (others a later)]
      · obtain ⟨other, later⟩ := not_or.mp (List.mem_cons.not.mp ha)
        rw [away a later, Function.update_of_ne other]

theorem rewind_total {node : ℕ} (chain : Linked small node nodes)
    (enough : nodes.length < fuel) : ∃ result, rewind fuel small node = some result := by
  induction nodes, fuel, enough using fuel_induction generalizing small node with
  | nil fuel => exact ⟨small, if_pos (chain_nil.mp chain)⟩
  | cons a rest fuel lasts ih =>
    have apart := (List.nodup_cons.mp chain.nodup).1
    obtain ⟨rfl, nonnull, tail⟩ := chain
    simp only [rewind, if_neg nonnull]
    refine ih (tail.congr fun a ha => ?_)
    rw [Function.update_of_ne (ne_of_mem_of_not_mem ha apart)]

end Walks

section Operations

structure Carved (s s' : MemoryPool) (nodes nodes' : List ℕ) (p size a : ℕ) : Prop where
  wellFormed : WellFormed s' nodes'
  grown : ∀ b ∈ nodes, b ∈ nodes'
  mem : a ∈ nodes'
  aligned : 16 ∣ p
  behind : a + SmallNode.size ≤ p
  last : (s'.small a).last_ = p + size
  above : a ∈ nodes → (s.small a).last_ ≤ p
  kept : ∀ b ∈ nodes, b ≠ a → (s'.small b).last_ = (s.small b).last_

theorem carved_fit {a : ℕ} (h : WellFormed s nodes) (ha : a ∈ nodes)
    (fits : size ≤ sizeSub (s.small a).end_ (mp_align_ptr (s.small a).last_)) (quote : ℕ) :
    Carved s (s.setSmall a { s.small a with
        quote_ := quote, last_ := sizeAdd (mp_align_ptr (s.small a).last_) size })
      nodes nodes (mp_align_ptr (s.small a).last_) size a := by
  have laid := h.laid a ha
  obtain ⟨aligned, up, -, -⟩ := laid.align
  obtain ⟨sum, inside⟩ := laid.carve fits
  have starts := laid.starts
  have others : ∀ b, b ≠ a → (s.setSmall a { s.small a with
      quote_ := quote
      last_ := sizeAdd (mp_align_ptr (s.small a).last_) size }).small b = s.small b :=
    fun b other => Function.update_of_ne other _ _
  refine ⟨h.update ⟨rfl, rfl⟩ h.current (fun b hb => ?_) (fun b hb => ?_) h.live h.records,
    fun _ => id, ha, aligned, by omega, ?_, fun _ => up, fun b _ other => by rw [others b other]⟩
  · exact ⟨update_field SmallNode.next_ (by rfl) b, update_field SmallNode.end_ (by rfl) b⟩
  · by_cases same : b = a
    · subst same
      simp only [setSmall, Function.update_self, sum]
      omega
    · rw [others b same]
      exact ⟨(h.laid b hb).starts, (h.laid b hb).within⟩
  · simp only [setSmall, Function.update_self, sum]

theorem fresh_apart (h : WellFormed s nodes) (fresh : Fresh s os) (success : os.ret = 0)
    {a : ℕ} (ha : a ∈ nodes) : Apart (blockOf s a) PAGE_SIZE os.memptr PAGE_SIZE :=
  ((fresh success).2.2.2 _ (h.live a ha)).symm

theorem fresh_not_mem (h : WellFormed s nodes) (fresh : Fresh s os) (success : os.ret = 0) :
    os.memptr ∉ nodes := by
  intro mem
  have apart := fresh_apart h fresh success mem
  have low := blockOf_le h os.memptr
  have laid := h.laid _ mem
  have starts := laid.starts
  have within := laid.within
  have ends := laid.ends
  unfold Apart SmallNode.size PAGE_SIZE at *
  omega

theorem fresh_ne (fresh : Fresh s os) (success : os.ret = 0) {q : ℕ}
    (named : q = 0 ∨ ∃ n, 0 < n ∧ (q, n) ∈ s.live) : q ≠ os.memptr := by
  obtain ⟨-, positive, -, apart⟩ := fresh success
  rintro rfl
  rcases named with null | ⟨n, some_, live⟩
  · exact Nat.ne_of_gt positive null
  · have disjoint := apart _ live
    unfold Apart PAGE_SIZE at disjoint
    omega

theorem head_mem (h : WellFormed s nodes) : s.pool.head_ ∈ nodes := by
  have chain := h.chain
  cases nodes with
  | nil => exact absurd h.current (by simp)
  | cons a rest =>
    rw [chain.1]
    exact List.mem_cons_self

def header (size : ℕ) (os : Memalign) : SmallNode where
  end_ := sizeAdd os.memptr PAGE_SIZE
  last_ := sizeAdd (mp_align_ptr (sizeAdd os.memptr SmallNode.size)) size
  quote_ := increment os.content.quote_
  failed_ := os.content.failed_
  next_ := 0

theorem mallocSmallNode_success (success : os.ret = 0) :
    s.mallocSmallNode fuel size os =
      (skip fuel (Function.update s.small os.memptr (header size os)) s.pool.current_
        s.pool.current_).map fun (small, current, cur) =>
        (mp_align_ptr (sizeAdd os.memptr SmallNode.size),
          { s with
            small := Function.update small cur { small cur with next_ := os.memptr }
            pool := { s.pool with current_ := current }
            live := (os.memptr, PAGE_SIZE) :: s.live }) := by
  simp [mallocSmallNode, success, posix_memalign, setSmall, header]

theorem header_fields (fresh : Fresh s os) (success : os.ret = 0)
    (hsize : size ≤ PAGE_SIZE - SmallNode.size) :
    mp_align_ptr (sizeAdd os.memptr SmallNode.size) = os.memptr + SmallNode.size ∧
      (header size os).end_ = os.memptr + PAGE_SIZE ∧
      (header size os).last_ = os.memptr + SmallNode.size + size := by
  obtain ⟨aligned, -, bound, -⟩ := fresh success
  unfold PAGE_SIZE SmallNode.size at *
  have behind : sizeAdd os.memptr 32 = os.memptr + 32 := sizeAdd_of_lt (by omega)
  have start : mp_align_ptr (sizeAdd os.memptr 32) = os.memptr + 32 := by
    rw [behind, mp_align_ptr_eq (by omega)]
    omega
  refine ⟨start, sizeAdd_of_lt bound, ?_⟩
  rw [header, SmallNode.size, start]
  exact sizeAdd_of_lt (by omega)

theorem linked_beside {new : ℕ} (h : WellFormed s nodes) (absent : new ∉ nodes)
    (node : SmallNode) : Linked (Function.update s.small new node) s.pool.head_ nodes :=
  h.chain.congr fun a ha => by rw [Function.update_of_ne (ne_of_mem_of_not_mem ha absent)]

theorem link_new {small : ℕ → SmallNode} {new current last : ℕ} (h : WellFormed s nodes)
    (absent : new ∉ nodes) (nonzero : new ≠ 0) {node : SmallNode} (ends : node.next_ = 0)
    (walk : skip fuel (Function.update s.small new node) s.pool.current_ s.pool.current_ =
      some (small, current, last)) :
    Linked (Function.update small last { small last with next_ := new }) s.pool.head_
        (nodes ++ [new]) ∧ current ∈ nodes ∧
      ∀ a, (Function.update small last { small last with next_ := new } a).end_ =
          (Function.update s.small new node a).end_ ∧
        (Function.update small last { small last with next_ := new } a).last_ =
          (Function.update s.small new node a).last_ := by
  have chain := linked_beside h absent node
  obtain ⟨front, rest, split, tail⟩ := chain.of_mem h.current
  have start : s.pool.current_ ≠ 0 := h.chain.ne_null h.current
  obtain ⟨same, moved, front', split'⟩ := skip_spec tail start walk
  have whole : nodes = (front ++ front') ++ [last] := by
    rw [split, split', List.append_assoc]
  have links : (fun a => (Function.update small last { small last with next_ := new } a).next_) =
      Function.update (fun a => (small a).next_) last new := by
    funext a
    by_cases at_ : a = last
    · subst at_
      simp
    · simp [Function.update_of_ne at_]
  refine ⟨?_, ?_, fun a => ?_⟩
  · rw [Linked, links, whole]
    refine Chain.concat (whole ▸ same.linked chain) (whole ▸ nodes_nodup h) (whole ▸ absent)
      nonzero ?_
    rw [(same new).2.2, Function.update_self]
    exact ends
  · rw [split]
    rcases moved with at_ | later
    · rw [at_]
      exact List.mem_append_right _ List.mem_cons_self
    · exact List.mem_append_right _ later
  · exact ⟨(update_field SmallNode.end_ (by rfl) a).trans (same a).1,
      (update_field SmallNode.last_ (by rfl) a).trans (same a).2.1⟩

theorem carved_new (h : WellFormed s nodes) (fresh : Fresh s os)
    (hsize : size ≤ PAGE_SIZE - SmallNode.size) (success : os.ret = 0)
    (hm : s.mallocSmallNode fuel size os = some (p, s')) :
    Carved s s' nodes (nodes ++ [os.memptr]) p size os.memptr := by
  obtain ⟨aligned, positive, bound, apart⟩ := fresh success
  obtain ⟨start, ends, filled⟩ := header_fields fresh success hsize
  have absent := fresh_not_mem h fresh success
  have other : os.memptr ≠ s.pool.head_ := fun same => absent (same ▸ head_mem h)
  rw [mallocSmallNode_success success] at hm
  obtain ⟨⟨small, current, last⟩, walk, result⟩ := Option.map_eq_some_iff.mp hm
  simp only [start, Prod.mk.injEq] at result
  obtain ⟨rfl, rfl⟩ := result
  obtain ⟨chain, moved, layout⟩ := link_new h absent (Nat.ne_of_gt positive) rfl walk
  have page : blockOf s os.memptr = os.memptr := if_neg other
  have old : ∀ a ∈ nodes, Function.update s.small os.memptr (header size os) a = s.small a :=
    fun a ha => Function.update_of_ne (ne_of_mem_of_not_mem ha absent) _ _
  have mem : ∀ {a}, a ∈ nodes ++ [os.memptr] → a ∈ nodes ∨ a = os.memptr := fun ha =>
    (List.mem_append.mp ha).imp_right List.mem_singleton.mp
  have newEnds := (layout os.memptr).1
  have newLast := (layout os.memptr).2
  rw [Function.update_self] at newEnds newLast
  refine ⟨⟨chain, h.head, List.mem_append_left _ moved, fun a ha => ?_, ?_, fun a ha => ?_, ?_⟩,
    fun b hb => List.mem_append_left _ hb, by simp, by unfold SmallNode.size; omega,
    Nat.le_refl _, newLast.trans filled, fun ha => absurd ha absent, fun b hb _ => ?_⟩
  · rcases mem ha with before | rfl
    · refine (h.laid a before).of_same rfl ?_ ?_
      · rw [← old a before]
        exact (layout a).1
      · rw [← old a before]
        exact (layout a).2
    · have within : os.memptr + SmallNode.size + size ≤ os.memptr + PAGE_SIZE := by
        unfold SmallNode.size PAGE_SIZE at *
        omega
      refine ⟨page.symm ▸ aligned, page.symm ▸ bound, ?_, ?_, ?_⟩
      · exact (newEnds.trans ends).trans (congrArg (· + PAGE_SIZE) page.symm)
      · exact (Nat.le_add_right _ size).trans (newLast.trans filled).ge
      · exact ((newLast.trans filled).le.trans within).trans (newEnds.trans ends).ge
  · refine List.pairwise_append.mpr ⟨h.apart, List.pairwise_singleton _ _, fun a ha b hb => ?_⟩
    rw [List.mem_singleton.mp hb]
    exact page.symm ▸ fresh_apart h fresh success ha
  · rcases mem ha with before | rfl
    · exact List.mem_cons_of_mem _ (h.live a before)
    · exact page.symm ▸ List.mem_cons_self
  · obtain ⟨records, listed, named⟩ := h.records
    refine ⟨records, listed, fun r hr => ⟨fun a ha => ?_, ?_⟩⟩
    · rcases mem ha with before | rfl
      · exact (named r hr).1 a before
      · exact (fresh_ne fresh success (named r hr).2).trans_eq page.symm
    · exact (named r hr).2.imp_right fun ⟨n, some_, live⟩ =>
        ⟨n, some_, List.mem_cons_of_mem _ live⟩
  · rw [← old b hb]
    exact (layout b).2

/-- A small allocation carves a block of the list or a new one, or finds no room while the OS
refuses a block. -/
theorem mallocSmall_cases (h : WellFormed s nodes)
    (hm : s.mallocSmall fuel size os = some (p, s')) :
    (∃ a ∈ nodes, size ≤ sizeSub (s.small a).end_ (mp_align_ptr (s.small a).last_) ∧
      p = mp_align_ptr (s.small a).last_ ∧
        s' = s.setSmall a { s.small a with
          quote_ := increment (s.small a).quote_
          last_ := sizeAdd (mp_align_ptr (s.small a).last_) size }) ∨
      fit fuel s.small s.pool.current_ size = some none ∧
        (os.ret = 0 ∧ s.mallocSmallNode fuel size os = some (p, s') ∨
          os.ret ≠ 0 ∧ p = 0 ∧ s' = s) := by
  obtain ⟨front, rest, split, tail⟩ := h.chain.of_mem h.current
  obtain ⟨found, scan, result⟩ := Option.bind_eq_some_iff.mp hm
  cases found with
  | some a =>
    obtain ⟨mem, fits⟩ := fit_mem tail scan a rfl
    simp only [Option.some.injEq, Prod.mk.injEq] at result
    exact .inl ⟨a, split ▸ List.mem_append_right _ mem, fits, result.1.symm, result.2.symm⟩
  | none =>
    refine .inr ⟨scan, ?_⟩
    by_cases success : os.ret = 0
    · exact .inl ⟨success, result⟩
    · simp only [mallocSmallNode, if_pos success, Option.some.injEq, Prod.mk.injEq] at result
      exact .inr ⟨success, result.1.symm, result.2.symm⟩

theorem mallocSmall_spec (h : WellFormed s nodes) (fresh : Fresh s os)
    (hsize : size ≤ PAGE_SIZE - SmallNode.size)
    (hm : s.mallocSmall fuel size os = some (p, s')) :
    (os.ret ≠ 0 ∧ fit fuel s.small s.pool.current_ size = some none ∧ p = 0 ∧ s' = s) ∨
      ∃ nodes' a, Carved s s' nodes nodes' p size a := by
  rcases mallocSmall_cases h hm with
    ⟨a, ha, fits, rfl, rfl⟩ | ⟨scan, ⟨success, result⟩ | ⟨refused, same⟩⟩
  · exact .inr ⟨nodes, a, carved_fit h ha fits _⟩
  · exact .inr ⟨_, _, carved_new h fresh hsize success result⟩
  · exact .inl ⟨refused, scan, same⟩

theorem mallocSmall_total (h : WellFormed s nodes) (fresh : Fresh s os)
    (enough : nodes.length < fuel) : ∃ result, s.mallocSmall fuel size os = some result := by
  obtain ⟨rest, tail, shorter⟩ := linked_current h.chain h.current
  obtain ⟨found, scan⟩ : ∃ found, fit fuel s.small s.pool.current_ size = some found :=
    fit_total tail (shorter.trans_lt enough)
  rw [mallocSmall, scan]
  cases found with
  | some a => exact ⟨_, rfl⟩
  | none =>
    by_cases success : os.ret = 0
    · have absent := fresh_not_mem h fresh success
      obtain ⟨rest, tail, shorter⟩ :=
        linked_current (linked_beside h absent (header size os)) h.current
      obtain ⟨result, walk⟩ : ∃ result, skip fuel (Function.update s.small os.memptr
          (header size os)) s.pool.current_ s.pool.current_ = some result :=
        skip_total tail (h.chain.ne_null h.current) (shorter.trans enough.le)
      exact ⟨_, (mallocSmallNode_success success).trans (congrArg _ walk)⟩
    · exact ⟨_, if_pos success⟩

theorem malloc_small (hsize : 1 ≤ size ∧ size ≤ PAGE_SIZE - SmallNode.size) (nested : Memalign) :
    s.malloc fuel size os nested = s.mallocSmall fuel size os := by
  rw [malloc, if_neg (Nat.ne_of_gt hsize.1), if_neg (Nat.not_lt.mpr hsize.2)]

theorem WellFormed.clear (h : WellFormed s nodes) (addr n : ℕ) :
    WellFormed (s.clear addr n) nodes :=
  h.update ⟨rfl, rfl⟩ h.current (fun _ _ => ⟨rfl, rfl⟩)
    (fun a ha => ⟨(h.laid a ha).starts, (h.laid a ha).within⟩) h.live h.records

theorem Carved.clear {nodes' : List ℕ} {a : ℕ} (h : Carved s s' nodes nodes' p size a)
    (addr n : ℕ) : Carved s (s'.clear addr n) nodes nodes' p size a :=
  { h with wellFormed := h.wellFormed.clear addr n }

theorem resetPool_spec (h : WellFormed s nodes) (hr : s.resetPool fuel = some s') :
    WellFormed s' nodes := by
  obtain ⟨records, listed, named⟩ := h.records
  obtain ⟨s₁, freed, rest⟩ := Option.bind_eq_some_iff.mp hr
  obtain ⟨small, rewound, rfl⟩ := Option.map_eq_some_iff.mp rest
  obtain ⟨shape, kept⟩ := freeLarge_spec listed freed
  rw [shape] at rewound ⊢
  obtain ⟨rewound, -⟩ := rewind_spec h.chain rewound
  have first := head_mem h
  refine h.update ⟨rfl, rfl⟩ first (fun a ha => ?_) (fun a ha => ?_)
    (fun a ha => ?_) ⟨[], rfl, by simp⟩
  · simp only [rewound a ha, and_self]
  · have starts := (h.laid a ha).starts
    have within := (h.laid a ha).within
    have bound := (h.laid a ha).bound
    have behind : (small a).last_ = a + SmallNode.size := by
      rw [rewound a ha]
      exact sizeAdd_of_lt (by rw [(h.laid a ha).ends] at within; omega)
    exact ⟨behind.ge, behind.le.trans (starts.trans within)⟩
  · exact kept _ (h.live a ha) fun r hr => (named r hr).1 a ha

theorem resetPool_total (h : WellFormed s nodes) :
    ∃ enough, ∀ fuel, enough < fuel → ∃ s', s.resetPool fuel = some s' := by
  obtain ⟨records, listed, -⟩ := h.records
  refine ⟨records.length + nodes.length, fun fuel lasts => ?_⟩
  obtain ⟨s₁, freed⟩ := freeLarge_total listed (Nat.lt_of_le_of_lt (Nat.le_add_right _ _) lasts)
  obtain ⟨shape, -⟩ := freeLarge_spec listed freed
  have chain : Linked s₁.small s₁.pool.head_ nodes := by
    rw [shape]
    exact h.chain
  obtain ⟨small, rewound⟩ :=
    rewind_total chain (Nat.lt_of_le_of_lt (Nat.le_add_left _ _) lasts)
  exact ⟨_, by rw [resetPool, freed, Option.bind_some, rewound]; rfl⟩

end Operations

section Runs

structure State where
  memory : MemoryPool
  allocations : List (ℕ × ℕ)

inductive Action where
  | malloc (fuel size : ℕ) (os nested : Memalign)
  | calloc (fuel size : ℕ) (os nested : Memalign)
  | resetPool (fuel : ℕ)

def State.record (s : State) (size : ℕ) (result : ℕ × MemoryPool) : State where
  memory := result.2
  allocations := if result.1 = 0 then s.allocations else (result.1, size) :: s.allocations

def next (s : State) : Action → Option State
  | .malloc fuel size os nested =>
    if 1 ≤ size ∧ size ≤ PAGE_SIZE - SmallNode.size then
      (s.memory.malloc fuel size os nested).map (s.record size)
    else none
  | .calloc fuel size os nested =>
    if 1 ≤ size ∧ size ≤ PAGE_SIZE - SmallNode.size then
      (s.memory.calloc fuel size os nested).map (s.record size)
    else none
  | .resetPool fuel => (s.memory.resetPool fuel).map fun memory => ⟨memory, []⟩

def smallAllocations : System State Action where
  init s := s.allocations = [] ∧ ∃ nodes, WellFormed s.memory nodes
  next := next

def Supplied (s : State) : Action → Prop
  | .malloc _ _ os _ => Fresh s.memory os
  | .calloc _ _ os _ => Fresh s.memory os
  | .resetPool _ => True

structure Placed (s : State) (nodes : List ℕ) : Prop where
  wellFormed : WellFormed s.memory nodes
  aligned : ∀ r ∈ s.allocations, 16 ∣ r.1
  inside : ∀ r ∈ s.allocations, ∃ a ∈ nodes,
    a + SmallNode.size ≤ r.1 ∧ r.1 + r.2 ≤ (s.memory.small a).last_
  disjoint : s.allocations.Pairwise fun r q => Apart r.1 r.2 q.1 q.2

theorem Carved.apart {nodes' : List ℕ} {a : ℕ} (h : Carved s s' nodes nodes' p size a)
    {r : ℕ × ℕ} {b : ℕ} (hb : b ∈ nodes)
    (behind : b + SmallNode.size ≤ r.1) (below : r.1 + r.2 ≤ (s.small b).last_) :
    Apart p size r.1 r.2 := by
  by_cases same : b = a
  · subst same
    exact .inr (below.trans (h.above hb))
  · have pages := pages_apart h.wellFormed h.mem (h.grown b hb) (Ne.symm same)
    have lowA := blockOf_le h.wellFormed a
    have lowB := blockOf_le h.wellFormed b
    have endsA := (h.wellFormed.laid a h.mem).ends
    have endsB := (h.wellFormed.laid b (h.grown b hb)).ends
    have withinA := (h.wellFormed.laid a h.mem).within
    have withinB := (h.wellFormed.laid b (h.grown b hb)).within
    rw [h.last, endsA] at withinA
    rw [h.kept b hb same, endsB] at withinB
    have start := h.behind
    unfold Apart at pages ⊢
    omega

theorem Carved.recorded {s : State} {m : MemoryPool} {nodes' : List ℕ} {a : ℕ}
    (h : Carved s.memory m nodes nodes' p size a) :
    (s.record size (p, m)).allocations = (p, size) :: s.allocations := by
  have behind := h.behind
  have nonnull : p ≠ 0 := by
    unfold SmallNode.size at behind
    omega
  exact if_neg nonnull

theorem Placed.carve {s : State} {m : MemoryPool} {nodes' : List ℕ} {a : ℕ}
    (h : Placed s nodes) (carved : Carved s.memory m nodes nodes' p size a) :
    Placed (s.record size (p, m)) nodes' := by
  have filled : ∀ b ∈ nodes, (s.memory.small b).last_ ≤ (m.small b).last_ := by
    intro b hb
    by_cases same : b = a
    · subst same
      rw [carved.last]
      exact (carved.above hb).trans (Nat.le_add_right p size)
    · exact (carved.kept b hb same).ge
  refine ⟨carved.wellFormed, ?_, ?_, ?_⟩ <;> rw [carved.recorded]
  · exact List.forall_mem_cons.mpr ⟨carved.aligned, h.aligned⟩
  · refine List.forall_mem_cons.mpr ⟨⟨a, carved.mem, carved.behind, carved.last.ge⟩, ?_⟩
    intro r hr
    obtain ⟨b, hb, behind, below⟩ := h.inside r hr
    exact ⟨b, carved.grown b hb, behind, below.trans (filled b hb)⟩
  · refine List.pairwise_cons.mpr ⟨fun r hr => ?_, h.disjoint⟩
    obtain ⟨b, hb, behind, below⟩ := h.inside r hr
    exact carved.apart hb behind below

theorem Placed.next {s t : State} {action : Action} (h : Placed s nodes)
    (supplied : Supplied s action) (hn : next s action = some t) :
    ∃ nodes', Placed t nodes' := by
  cases action with
  | malloc fuel size os nested =>
    obtain ⟨hsize, hn⟩ := Option.ite_none_right_eq_some.mp hn
    rw [malloc_small hsize] at hn
    obtain ⟨⟨p, m⟩, result, rfl⟩ := Option.map_eq_some_iff.mp hn
    rcases mallocSmall_spec h.wellFormed supplied hsize.2 result with
      ⟨-, -, rfl, rfl⟩ | ⟨nodes', a, carved⟩
    · exact ⟨nodes, h⟩
    · exact ⟨nodes', h.carve carved⟩
  | calloc fuel size os nested =>
    obtain ⟨hsize, hn⟩ := Option.ite_none_right_eq_some.mp hn
    rw [MemoryPool.calloc, malloc_small hsize, Option.map_map] at hn
    obtain ⟨⟨p, m⟩, result, rfl⟩ := Option.map_eq_some_iff.mp hn
    rcases mallocSmall_spec h.wellFormed supplied hsize.2 result with
      ⟨-, -, rfl, rfl⟩ | ⟨nodes', a, carved⟩
    · exact ⟨nodes, h⟩
    · refine ⟨nodes', h.carve (a := a) ?_⟩
      split_ifs
      · exact carved.clear p size
      · exact carved
  | resetPool fuel =>
    obtain ⟨m, result, rfl⟩ := Option.map_eq_some_iff.mp hn
    exact ⟨nodes, resetPool_spec h.wellFormed result, by simp, by simp, .nil⟩

structure NoCollision (s : State) (nodes : List ℕ) : Prop where
  wellFormed : WellFormed s.memory nodes
  last : ∀ a ∈ nodes, (s.memory.small a).last_ ≤ (s.memory.small a).end_
  aligned : ∀ r ∈ s.allocations, 16 ∣ r.1
  inside : ∀ r ∈ s.allocations, ∃ a ∈ nodes,
    a + SmallNode.size ≤ r.1 ∧ r.1 + r.2 ≤ blockOf s.memory a + PAGE_SIZE
  disjoint : s.allocations.Pairwise fun r q => Apart r.1 r.2 q.1 q.2
  refused : ∀ fuel size os nested, 1 ≤ size ∧ size ≤ PAGE_SIZE - SmallNode.size →
    fit fuel s.memory.small s.memory.pool.current_ size = some none → os.ret ≠ 0 →
      s.memory.malloc fuel size os nested = some (0, s.memory) ∧
        s.memory.calloc fuel size os nested = some (0, s.memory)
  returns : ∃ enough, ∀ fuel, enough < fuel →
    (∀ size os nested, 1 ≤ size ∧ size ≤ PAGE_SIZE - SmallNode.size → Fresh s.memory os →
      (s.memory.malloc fuel size os nested).isSome ∧
        (s.memory.calloc fuel size os nested).isSome) ∧
      (s.memory.resetPool fuel).isSome

theorem Placed.noCollision {s : State} (h : Placed s nodes) : NoCollision s nodes := by
  refine ⟨h.wellFormed, fun a ha => (h.wellFormed.laid a ha).within, h.aligned, fun r hr => ?_,
    h.disjoint, fun fuel size os nested hsize scan refuses => ?_, ?_⟩
  · obtain ⟨a, ha, behind, below⟩ := h.inside r hr
    have laid := h.wellFormed.laid a ha
    exact ⟨a, ha, behind, laid.ends ▸ below.trans laid.within⟩
  · have null : s.memory.malloc fuel size os nested = some (0, s.memory) := by
      rw [malloc_small hsize, mallocSmall, scan]
      exact if_pos refuses
    exact ⟨null, by rw [MemoryPool.calloc, null]; rfl⟩
  · obtain ⟨enough, resets⟩ := resetPool_total h.wellFormed
    refine ⟨enough + nodes.length, fun fuel lasts =>
      ⟨fun size os nested hsize fresh => ?_, ?_⟩⟩
    · obtain ⟨result, returns⟩ : ∃ result, s.memory.mallocSmall fuel size os = some result :=
        mallocSmall_total h.wellFormed fresh (Nat.lt_of_le_of_lt (Nat.le_add_left _ _) lasts)
      rw [MemoryPool.calloc, malloc_small hsize, returns]
      exact ⟨rfl, rfl⟩
    · obtain ⟨m, returns⟩ := resets fuel (Nat.lt_of_le_of_lt (Nat.le_add_right _ _) lasts)
      rw [returns]
      rfl

/-- Small allocations never collide, whatever the OS answers. -/
theorem allocations_disjoint {s : State} (h : smallAllocations.Reachable Supplied s) :
    ∃ nodes, NoCollision s nodes := by
  have placed : ∃ nodes, Placed s nodes := by
    refine h.invariant (P := fun s => ∃ nodes, Placed s nodes) ?_ ?_
    · rintro s ⟨empty, nodes, wellFormed⟩
      exact ⟨nodes, wellFormed, by simp [empty], by simp [empty], by simp [empty]⟩
    · rintro s action t ⟨nodes, hs⟩ supplied hn
      exact hs.next supplied hn
  obtain ⟨nodes, placed⟩ := placed
  exact ⟨nodes, placed.noCollision⟩

instance (s : State) (action : Action) : Decidable (Supplied s action) := by
  cases action <;> unfold Supplied <;> infer_instance

def refusal : Memalign := ⟨12, 0, ⟨0, 0, 0, 0, 0⟩⟩

def sample : State where
  memory :=
    { pool_ := 16
      pool := ⟨0, 40, 40⟩
      small := fun a => if a = 40 then ⟨4112, 72, 0, 0, 0⟩ else ⟨0, 0, 0, 0, 0⟩
      large := fun _ => ⟨0, 0, 0⟩
      bytes := fun _ => 0
      live := [(16, 4096)]
      freed := [] }
  allocations := []

theorem sample_wellFormed : WellFormed sample.memory [40] := by
  refine ⟨⟨rfl, by decide, rfl⟩, rfl, by decide, ?_, by simp, ?_, [], rfl, by simp⟩
  · intro a ha
    rw [List.mem_singleton.mp ha]
    exact ⟨by decide, by decide, rfl, by decide, by decide⟩
  · intro a ha
    rw [List.mem_singleton.mp ha]
    exact List.mem_singleton.mpr rfl

theorem sample_initial : smallAllocations.init sample := ⟨rfl, [40], sample_wellFormed⟩

theorem allocations_disjoint_two_blocks :
    ∃ s, smallAllocations.Reachable Supplied s ∧
      s.allocations = [(4080, 20), (8224, 100), (80, 4000)] ∧ ∃ nodes, NoCollision s nodes := by
  have run : (smallAllocations.execute Supplied sample
      [.malloc 9 4000 refusal refusal, .malloc 9 100 ⟨0, 8192, ⟨1, 2, 3, 4, 5⟩⟩ refusal,
        .calloc 9 20 refusal refusal, .malloc 9 4064 refusal refusal]).map (·.allocations) =
      some [(4080, 20), (8224, 100), (80, 4000)] := by decide +kernel
  obtain ⟨s, reached, ends⟩ := System.Reachable.of_replay sample_initial run
  exact ⟨s, reached, ends, allocations_disjoint reached⟩

end Runs

end TinyNetwork.SmallAllocation
