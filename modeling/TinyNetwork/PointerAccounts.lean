import TinyNetwork.TcpServer

/-! The use counts of the connections of a server. Every pointer is accounted for: the
map's, the functors' in the queues, and those on the stacks, and every operation runs under
a pointer that is released later. This holds in every run, the server's destruction
included. -/
namespace TinyNetwork.PointerAccounts
open Transition PendingWork TcpServer

variable {Λ : Type*}

def releases (k : ℕ) : Op Λ → ℕ
  | .release j => if j = k then 1 else 0
  | _ => 0

/-- What an operation uses without holding it. -/
def uses : Op Λ → List ℕ
  | .callback k => [k]
  | .call f => f.held
  | .runInLoop _ f => f.held
  | .queueInLoop _ f => f.held
  | .emplaceBack _ f => f.held
  | .handleRead k => [k]
  | .handleWrite k => [k]
  | .handleClose k => [k]
  | .removeConnection k => [k]
  | .remove k => [k]
  | _ => []

abbrev Guarded (ops : List (Op Λ)) : Prop :=
  Covered (fun op k => k ∈ uses op) (fun op k => op = .release k) ops

section Lists
variable {rest : List (Op Λ)} {k : ℕ}

@[simp] theorem load_releases (ks : List ℕ) :
    load (releases (Λ := Λ) k) (ks.map .release) = ks.count k := by
  induction ks with
  | nil => rfl
  | cons j ks ih =>
    rw [List.map_cons, load_cons, ih, List.count_cons, Nat.add_comm]
    simp [releases]

@[simp] theorem load_held (fs : List TcpServer.Functor) :
    load (fun f => f.held.count k) fs = (fs.flatMap Functor.held).count k := by
  induction fs with
  | nil => rfl
  | cons f fs ih => rw [load_cons, ih, List.flatMap_cons, List.count_append]

theorem covered_releases (ks : List ℕ) (h : Guarded rest) :
    Guarded (ks.map (.release (Λ := Λ)) ++ rest) :=
  covered_append h fun a ha k hk => by
    obtain ⟨j, -, rfl⟩ := List.mem_map.mp ha
    cases hk

end Lists

/-- The operation takes up pointers, and has each of them released again by what it calls. -/
structure Borrows (s : State Λ) (op : Op Λ) (held : List ℕ) (r : State Λ × List (Op Λ)) : Prop where
  frame : Frame (s.retain held) r.1
  sockfd : ∀ j, (r.1.conns j).sockfd = (s.conns j).sockfd
  live : ∀ k ∈ held, k ∈ uses op ∨ 0 < s.refs k
  own : ∀ k, releases k op = 0
  released : ∀ k, load (releases k) r.2 = held.count k
  covers : ∀ rest, Guarded rest → (∀ k ∈ uses op, .release k ∈ rest) → Guarded (r.2 ++ rest)

def moves : Op Λ → Bool
  | .release _ => true
  | .call (.removeConnectionInLoop _) => true
  | .emplaceBack _ _ => true
  | .newConnection => true
  | .doPendingFunctors => true
  | .destroyItem _ => true
  | .join _ => true
  | _ => false

section Borrowing
variable [DecidableEq Λ] {s t : State Λ} {main l : Λ} {op : Op Λ} {called : List (Op Λ)}
  {input : Input Λ} {k : ℕ} {r : State Λ × List (Op Λ)}

omit [DecidableEq Λ] in
theorem borrows_nothing (frame : Frame s t) (sockfd : ∀ j, (t.conns j).sockfd = (s.conns j).sockfd)
    (own : ∀ k, releases k op = 0) (quiet : ∀ a ∈ called, ∀ k, releases k a = 0)
    (same : ∀ a ∈ called, ∀ k ∈ uses a, k ∈ uses op) : Borrows s op [] (t, called) where
  frame := ⟨frame.1, frame.2, frame.3, frame.4⟩
  sockfd := sockfd
  live := by simp
  own := own
  released k := load_eq_zero fun a ha => quiet a ha k
  covers rest later held :=
    covered_append later fun a ha k hk => ⟨.release k, held k (same a ha k hk), rfl⟩

omit [DecidableEq Λ] in
theorem borrows_idle (frame : Frame s t) (sockfd : ∀ j, (t.conns j).sockfd = (s.conns j).sockfd)
    (own : ∀ k, releases k op = 0) : Borrows s op [] (t, []) :=
  borrows_nothing frame sockfd own (by simp) (by simp)

omit [DecidableEq Λ] in
theorem borrows_one (body after : List (Op Λ)) (frame : Frame (s.retain [k]) t)
    (sockfd : ∀ j, (t.conns j).sockfd = (s.conns j).sockfd) (live : k ∈ uses op ∨ 0 < s.refs k)
    (own : ∀ k, releases k op = 0) (quiet : ∀ a ∈ body ++ after, ∀ j, releases j a = 0)
    (inside : ∀ a ∈ body, ∀ j ∈ uses a, j = k) (same : ∀ a ∈ after, ∀ j ∈ uses a, j ∈ uses op) :
    Borrows s op [k] (t, body ++ .release k :: after) where
  frame := frame
  sockfd := sockfd
  live := by simpa using live
  own := own
  released j := by
    rw [load_append, load_cons, load_eq_zero fun a ha => quiet a (List.mem_append_left _ ha) j,
      load_eq_zero fun a ha => quiet a (List.mem_append_right _ ha) j]
    simp [releases, List.count_cons]
  covers rest later held := by
    rw [List.append_assoc]
    refine covered_append ⟨by simp [uses], covered_append later fun a ha j hj => ?_⟩
      fun a ha j hj => ?_
    · exact ⟨.release j, held j (same a ha j hj), rfl⟩
    · rw [inside a ha j hj]
      exact ⟨_, List.mem_cons_self, rfl⟩

omit [DecidableEq Λ] in
theorem borrows_passed {a : Op Λ} {f : TcpServer.Functor} (own : ∀ k, releases k op = 0)
    (same : uses op = f.held) (quiet : ∀ k, releases k a = 0) (inside : uses a = f.held) :
    Borrows s op f.held (s.retain f.held, a :: f.held.map .release) where
  frame := ⟨rfl, rfl, rfl, rfl⟩
  sockfd _ := rfl
  live _ hk := .inl (same ▸ hk)
  own := own
  released k := by rw [load_cons, quiet, load_releases, Nat.zero_add]
  covers rest later held := by
    refine ⟨fun k hk => ?_, covered_releases f.held later⟩
    exact ⟨.release k, List.mem_append_right _ (held k (same ▸ inside ▸ hk)), rfl⟩

theorem call_borrows {f : TcpServer.Functor} (stays : moves (Op.call (Λ := Λ) f) = false) :
    ∃ held, Borrows s (.call f) held (s.call f) := by
  cases f with
  | connectEstablished k =>
    exact ⟨[k], borrows_one [.callback k] [] ⟨rfl, rfl, rfl, rfl⟩ (fun _ => s.setState_sockfd ..)
      (.inl List.mem_cons_self) (fun _ => rfl) (by simp [releases]) (by simp [uses]) (by simp)⟩
  | connectDestroyed k =>
    simp only [State.call, State.connectDestroyed]
    split_ifs
    · exact ⟨[k], borrows_one [.callback k] [.remove k] ⟨rfl, rfl, rfl, rfl⟩
        (fun _ => s.setState_sockfd ..) (.inl List.mem_cons_self) (fun _ => rfl)
        (by simp [releases]) (by simp [uses]) (by simp [uses, Functor.held])⟩
    · exact ⟨[], borrows_nothing ⟨rfl, rfl, rfl, rfl⟩ (fun _ => rfl) (fun _ => rfl)
        (by simp [releases]) (by simp [uses, Functor.held])⟩
  | removeConnectionInLoop k => cases stays
  | notify k =>
    exact ⟨[], borrows_nothing ⟨rfl, rfl, rfl, rfl⟩ (fun _ => rfl) (fun _ => rfl)
      (by simp [releases]) (by simp [uses, Functor.held])⟩
  | task =>
    exact ⟨[], borrows_idle ⟨rfl, rfl, rfl, rfl⟩ (fun _ => rfl) fun _ => rfl⟩

theorem perform_borrows (hp : s.perform main l input op = some r) (stays : moves op = false) :
    ∃ held, Borrows s op held r := by
  cases op with
  | callback k =>
    cases hp
    obtain ⟨frame, queues⟩ := s.callback_spec k input
    refine ⟨[], borrows_nothing frame (fun _ => s.callback_sockfd ..) (fun _ => rfl)
      (fun a ha _ => ?_) fun a ha => ?_⟩
    · rw [queues a ha]
      rfl
    · rw [queues a ha]
      exact fun _ => id
  | call f =>
    cases hp
    exact call_borrows stays
  | runInLoop loop f =>
    cases hp
    refine ⟨f.held, borrows_passed (fun _ => rfl) rfl (fun k => ?_) ?_⟩
    · split_ifs <;> rfl
    · split_ifs <;> rfl
  | queueInLoop loop f =>
    cases hp
    exact ⟨f.held, borrows_passed (fun _ => rfl) rfl (fun _ => rfl) rfl⟩
  | handleEvent k revents =>
    cases hp
    have handlers := State.handleEventWithGuard_spec (Λ := Λ) k revents
    unfold State.handleEvent
    split_ifs with live
    · refine ⟨[k], borrows_one _ [] ⟨rfl, rfl, rfl, rfl⟩ (fun _ => rfl) (.inr live)
        (fun _ => rfl) (fun a ha j => ?_) (fun a ha j => ?_) (by simp)⟩
      · rw [List.append_nil] at ha
        rcases handlers a ha with rfl | rfl | rfl <;> rfl
      · rcases handlers a ha with rfl | rfl | rfl <;> simp [uses]
    · exact ⟨[], borrows_idle ⟨rfl, rfl, rfl, rfl⟩ (fun _ => rfl) fun _ => rfl⟩
  | handleRead k =>
    cases hp
    unfold State.handleRead
    split_ifs
    · exact ⟨[k], borrows_one [.callback k] [] ⟨rfl, rfl, rfl, rfl⟩ (fun _ => rfl)
        (.inl List.mem_cons_self) (fun _ => rfl) (by simp [releases]) (by simp [uses]) (by simp)⟩
    · exact ⟨[], borrows_nothing ⟨rfl, rfl, rfl, rfl⟩ (fun _ => rfl) (fun _ => rfl)
        (by simp [releases]) (by simp [uses])⟩
    · exact ⟨[], borrows_idle ⟨rfl, rfl, rfl, rfl⟩ (fun _ => rfl) fun _ => rfl⟩
  | handleWrite k =>
    cases hp
    unfold State.handleWrite
    split_ifs
    · exact ⟨[], borrows_nothing ⟨rfl, rfl, rfl, rfl⟩ (fun _ => rfl) (fun _ => rfl)
        (by simp [releases]) (by simp [uses, Functor.held])⟩
    · exact ⟨[], borrows_idle ⟨rfl, rfl, rfl, rfl⟩ (fun _ => rfl) fun _ => rfl⟩
    · exact ⟨[], borrows_idle ⟨rfl, rfl, rfl, rfl⟩ (fun _ => rfl) fun _ => rfl⟩
  | handleClose k =>
    cases hp
    exact ⟨[k], borrows_one [.callback k, .removeConnection k] [] ⟨rfl, rfl, rfl, rfl⟩
      (fun _ => s.setState_sockfd ..) (.inl List.mem_cons_self) (fun _ => rfl)
      (by simp [releases]) (by simp [uses]) (by simp)⟩
  | removeConnection k =>
    cases hp
    exact ⟨[], borrows_nothing ⟨rfl, rfl, rfl, rfl⟩ (fun _ => rfl) (fun _ => rfl)
      (by simp [releases]) (by simp [uses, Functor.held])⟩
  | remove k =>
    cases hp
    exact ⟨[], borrows_idle ⟨rfl, rfl, rfl, rfl⟩ (fun _ => rfl) fun _ => rfl⟩
  | quit loop =>
    cases hp
    exact ⟨[], borrows_idle ⟨rfl, rfl, rfl, rfl⟩ (fun _ => rfl) fun _ => rfl⟩
  | _ => cases stays

end Borrowing

variable [Fintype Λ]

/-- The strong pointers to a connection: in `connections_`, on stacks and in queued
functors. -/
def owners (s : State Λ) (k : ℕ) : ℕ :=
  s.connections_.count k + tally (releases k) s.ops +
    tally (fun f => f.held.count k) s.pendingFunctors_

structure Accounted (s : State Λ) : Prop where
  balance : ∀ k, s.refs k = owners s k
  unborn : ∀ k, s.nextConnId_ ≤ k → s.refs k = 0
  guarded : ∀ l, Guarded (s.ops l)

section Held
variable {s : State Λ} {l : Λ} {op : Op Λ} {rest called : List (Op Λ)} {k : ℕ}

theorem Accounted.used (h : Accounted s) (now : s.ops l = op :: rest) (hk : k ∈ uses op) :
    Op.release k ∈ rest ∧ 0 < s.refs k := by
  have guarded := h.guarded l
  rw [now] at guarded
  obtain ⟨b, hb, rfl⟩ := guarded.1 k hk
  refine ⟨hb, ?_⟩
  have held : 0 < tally (releases k) s.ops := by
    refine tally_pos.mpr ⟨l, .release k, now ▸ List.mem_cons_of_mem op hb, ?_⟩
    simp [releases]
  rw [h.balance, owners]
  omega

theorem Accounted.later (h : Accounted s) (now : s.ops l = op :: rest) : Guarded rest := by
  have guarded := h.guarded l
  rw [now] at guarded
  exact guarded.2

theorem Accounted.cover (h : Accounted s) (now : s.ops l = op :: rest)
    (same : ∀ a ∈ called, ∀ k ∈ uses a, k ∈ uses op) : Guarded (called ++ rest) :=
  covered_append (h.later now) fun a ha k hk =>
    ⟨.release k, (h.used now (same a ha k hk)).1, rfl⟩

def Owned (s : State Λ) (k : ℕ) : Prop :=
  k ∈ s.connections_ ∨ (∃ l, ∃ f ∈ s.pendingFunctors_ l, k ∈ f.held) ∨ ∃ l, .release k ∈ s.ops l

theorem Accounted.owned (h : Accounted s) (live : 0 < s.refs k) : Owned s k := by
  rw [h.balance, owners] at live
  by_cases mem : k ∈ s.connections_
  · exact .inl mem
  · rw [List.count_eq_zero.mpr mem] at live
    by_cases onStack : 0 < tally (releases k) s.ops
    · obtain ⟨l, op, hop, weight⟩ := tally_pos.mp onStack
      refine .inr (.inr ⟨l, ?_⟩)
      cases op with
      | release j =>
        by_cases same : j = k
        · exact same ▸ hop
        · simp [releases, same] at weight
      | _ => exact absurd weight (Nat.lt_irrefl 0)
    · obtain ⟨l, f, hf, weight⟩ := tally_pos.mp
        (show 0 < tally (fun f => f.held.count k) s.pendingFunctors_ by omega)
      exact .inr (.inl ⟨l, f, hf, List.count_pos_iff.mp weight⟩)

end Held

section Accounts
variable [DecidableEq Λ] {s t : State Λ} {main l : Λ} {op : Op Λ} {rest called : List (Op Λ)}
  {input : Input Λ} {k : ℕ}

theorem tally_step (w : Op Λ → ℕ) (called : List (Op Λ)) (now : s.ops l = op :: rest) :
    tally w (Function.update s.ops l (called ++ rest)) + w op = tally w s.ops + load w called := by
  have moved := tally_update w s.ops l (called ++ rest)
  rw [now, load_append, load_cons] at moved
  omega

theorem Accounted.advance (h : Accounted s) (now : s.ops l = op :: rest)
    (balance : ∀ k, t.refs k + releases k op + s.connections_.count k +
        tally (fun f => f.held.count k) s.pendingFunctors_ =
      s.refs k + load (releases k) called + t.connections_.count k +
        tally (fun f => f.held.count k) t.pendingFunctors_)
    (unborn : ∀ k, t.nextConnId_ ≤ k → t.refs k = 0) (guarded : Guarded (called ++ rest)) :
    Accounted { t with ops := Function.update s.ops l (called ++ rest) } where
  balance k := by
    have before := h.balance k
    have moved := tally_step (releases k) called now
    have step := balance k
    unfold owners at before ⊢
    simp only
    omega
  unborn := unborn
  guarded := forall_update (P := fun _ => Guarded) h.guarded guarded

omit [DecidableEq Λ] in
theorem Accounted.held {held : List ℕ} {r : State Λ × List (Op Λ)} (h : Accounted s)
    (now : s.ops l = op :: rest) (borrows : Borrows s op held r) (mem : k ∈ held) :
    0 < s.refs k :=
  (borrows.live k mem).elim (fun hk => (h.used now hk).2) id

theorem Accounted.borrow {held : List ℕ} {r : State Λ × List (Op Λ)} (h : Accounted s)
    (now : s.ops l = op :: rest) (borrows : Borrows s op held r) :
    Accounted { r.1 with ops := Function.update s.ops l (r.2 ++ rest) } := by
  have frame := borrows.frame
  have refs : ∀ k, r.1.refs k = s.refs k + held.count k := fun k => by rw [frame.refs]; rfl
  refine h.advance now (fun k => ?_) (fun k hk => ?_)
    (borrows.covers rest (h.later now) fun k hk => (h.used now hk).1)
  · rw [refs, frame.connections_, frame.pendingFunctors_, borrows.own, borrows.released]
    rfl
  · have old : s.nextConnId_ ≤ k := frame.nextConnId_ ▸ hk
    have none : k ∉ held := fun mem =>
      Nat.ne_of_gt (h.held now borrows mem) (h.unborn k old)
    rw [refs, h.unborn k old, List.count_eq_zero.mpr none]

theorem Accounted.release (h : Accounted s) (now : s.ops l = .release k :: rest) :
    Accounted { s.release k with ops := Function.update s.ops l ([] ++ rest) } := by
  have held : 0 < s.refs k := by
    have one : 0 < tally (releases k) s.ops :=
      tally_pos.mpr ⟨l, .release k, now ▸ List.mem_cons_self, by simp [releases]⟩
    have balance := h.balance k
    unfold owners at balance
    omega
  refine h.advance now (fun j => ?_) (fun j hj => ?_) (h.cover now (by simp))
  · by_cases same : j = k
    · subst same
      simp [State.release, releases]
      omega
    · simp [State.release, releases, Function.update_of_ne same, Ne.symm same]
  · have zero := h.unborn j hj
    by_cases same : j = k
    · subst same
      omega
    · simpa [State.release, Function.update_of_ne same] using zero

theorem Accounted.removeConnectionInLoop (h : Accounted s)
    (now : s.ops l = .call (.removeConnectionInLoop k) :: rest) :
    Accounted { (s.removeConnectionInLoop k).1 with
      ops := Function.update s.ops l ((s.removeConnectionInLoop k).2 ++ rest) } := by
  have live := (h.used (k := k) now (by simp [uses, Functor.held])).2
  obtain ⟨-, -, -, next, pending, -⟩ := (s.record (.removeConnectionInLoop k)).erase_frame k
  have entry := (s.record (.removeConnectionInLoop k)).erase_refs live
  refine h.advance now (fun j => ?_) (fun j hj => ?_)
    (h.cover now (by simp [uses, Functor.held, State.removeConnectionInLoop]))
  · have gone := (entry j).2
    simp only [State.removeConnectionInLoop, pending, load_cons, load_nil, releases]
    simp only [State.record] at gone ⊢
    omega
  · have older := (entry j).1
    have zero := h.unborn j (next ▸ hj)
    exact Nat.le_zero.mp (zero ▸ older)

theorem Accounted.take {loop : Λ} (h : Accounted s) (body : List (Op Λ))
    (now : s.ops l = op :: rest) (own : ∀ k, releases k op = 0)
    (quiet : ∀ a ∈ body, ∀ k, releases k a = 0)
    (inside : ∀ a ∈ body, ∀ k ∈ uses a, k ∈ (s.pendingFunctors_ loop).flatMap Functor.held) :
    Accounted { s with
      pendingFunctors_ := Function.update s.pendingFunctors_ loop []
      ops := Function.update s.ops l
        ((body ++ ((s.pendingFunctors_ loop).flatMap Functor.held).map .release) ++ rest) } := by
  refine h.advance (t := { s with
    pendingFunctors_ := Function.update s.pendingFunctors_ loop [] }) now (fun k => ?_)
    (fun k hk => h.unborn k hk) ?_
  · have moved := tally_clear (fun f => f.held.count k) s.pendingFunctors_ loop
    rw [load_held] at moved
    rw [own, load_append, load_eq_zero fun a ha => quiet a ha k, load_releases]
    simp only
    omega
  · have later := h.later now
    rw [List.append_assoc]
    refine covered_append (covered_releases _ later) fun a ha k hk => ?_
    exact ⟨.release k, List.mem_append_left _ (List.mem_map.mpr ⟨k, inside a ha k hk, rfl⟩), rfl⟩

theorem Accounted.emplaceBack {loop : Λ} {f : TcpServer.Functor} (h : Accounted s)
    (now : s.ops l = .emplaceBack loop f :: rest) :
    Accounted { (s.emplaceBack loop f).1 with
      ops := Function.update s.ops l ((s.emplaceBack loop f).2 ++ rest) } := by
  refine h.advance now (fun k => ?_) (fun k hk => ?_) (h.cover now (by simp [State.emplaceBack]))
  · have moved := tally_snoc (fun f => f.held.count k) s.pendingFunctors_ loop f
    simp only [State.emplaceBack, State.retain, releases, load_nil]
    omega
  · have none : k ∉ f.held := fun mem =>
      Nat.ne_of_gt (h.used now mem).2 (h.unborn k hk)
    simp [State.emplaceBack, State.retain, h.unborn k hk, List.count_eq_zero.mpr none]

theorem Accounted.destroyItem (h : Accounted s) (now : s.ops l = .destroyItem k :: rest) :
    Accounted { (s.destroyItem k).1 with
      ops := Function.update s.ops l ((s.destroyItem k).2 ++ rest) } := by
  unfold State.destroyItem
  split_ifs with mem
  · refine h.advance (t := { s with connections_ := s.connections_.erase k }) now (fun j => ?_)
      (fun j hj => h.unborn j hj) ?_
    · have entry := List.count_pos_iff.mpr mem
      by_cases same : j = k
      · subst same
        simp [releases]
        omega
      · simp [releases, List.count_erase_of_ne same, Ne.symm same]
    · have later := h.later now
      exact ⟨by simp [uses, Functor.held], by simp [uses], later⟩
  · exact h.borrow now (borrows_idle ⟨rfl, rfl, rfl, rfl⟩ (fun _ => rfl) fun _ => rfl)

theorem Accounted.newConnection {r : State Λ × List (Op Λ)} {accepted : Option (ℕ × Λ)}
    (h : Accounted s) (now : s.ops l = .newConnection :: rest)
    (hr : s.newConnection accepted = some r) :
    Accounted { r.1 with ops := Function.update s.ops l (r.2 ++ rest) } := by
  cases accepted with
  | none =>
    cases hr
    exact h.borrow now (borrows_idle ⟨rfl, rfl, rfl, rfl⟩ (fun _ => rfl) fun _ => rfl)
  | some pair =>
    obtain ⟨sockfd, ioLoop⟩ := pair
    obtain ⟨-, rfl⟩ := guard_met hr
    have zero := h.unborn s.nextConnId_ (Nat.le_refl _)
    refine h.advance now (fun j => ?_) (fun j hj => ?_) ?_
    · by_cases same : j = s.nextConnId_
      · subst same
        simp [releases, zero]
        omega
      · simp [releases, Function.update_of_ne same, Ne.symm same]
    · have other : j ≠ s.nextConnId_ := Nat.ne_of_gt hj
      simp only [Function.update_of_ne other]
      exact h.unborn j (Nat.le_of_succ_le hj)
    · have later := h.later now
      exact ⟨by simp [uses, Functor.held], by simp [uses], later⟩

theorem Accounted.perform {r : State Λ × List (Op Λ)} (h : Accounted s)
    (now : s.ops l = op :: rest) (hp : s.perform main l input op = some r) :
    Accounted { r.1 with ops := Function.update s.ops l (r.2 ++ rest) } := by
  by_cases stays : moves op = false
  · obtain ⟨held, borrows⟩ := perform_borrows hp stays
    exact h.borrow now borrows
  cases op with
  | release k =>
    cases hp
    exact h.release now
  | call f =>
    cases hp
    cases f with
    | removeConnectionInLoop k => exact h.removeConnectionInLoop now
    | _ => exact absurd rfl stays
  | emplaceBack loop f =>
    cases hp
    exact h.emplaceBack now
  | newConnection => exact h.newConnection now hp
  | doPendingFunctors =>
    cases hp
    refine h.take _ now (fun _ => rfl) (fun a ha k => ?_) fun a ha k hk => ?_
    · obtain ⟨f, -, rfl⟩ := List.mem_map.mp ha
      rfl
    · obtain ⟨f, hf, rfl⟩ := List.mem_map.mp ha
      exact List.mem_flatMap.mpr ⟨f, hf, hk⟩
  | destroyItem k =>
    cases hp
    exact h.destroyItem now
  | join loop =>
    obtain ⟨-, rfl⟩ := guard_met hp
    exact h.take [] now (fun _ => rfl) (by simp) (by simp)
  | _ => exact absurd rfl stays

theorem Accounted.enter (h : Accounted s) (quiet : ∀ a ∈ called, ∀ k, releases k a = 0)
    (bare : ∀ a ∈ called, uses a = []) :
    Accounted { s with ops := Function.update s.ops l (called ++ s.ops l) } where
  balance k := by
    have before := h.balance k
    have moved := tally_prepend (releases k) s.ops l called
    rw [load_eq_zero fun a ha => quiet a ha k] at moved
    unfold owners at before ⊢
    simp only
    omega
  unborn := h.unborn
  guarded := by
    refine forall_update (P := fun _ => Guarded) h.guarded ?_
    refine covered_append (h.guarded l) fun a ha k hk => ?_
    rw [bare a ha] at hk
    cases hk

theorem Accounted.next {a : Action Λ} (h : Accounted s) (hn : next main s a = some t) :
    Accounted t := by
  cases a with
  | iterate l active =>
    obtain ⟨⟨idle, -, -⟩, rfl⟩ := guard_met hn
    have taken : ∀ a ∈ active.map (Active.op (Λ := Λ)) ++ [.doPendingFunctors],
        (∀ k, releases k a = 0) ∧ uses a = [] :=
      round_spec (fun a _ => by cases a <;> exact ⟨fun _ => rfl, rfl⟩) ⟨fun _ => rfl, rfl⟩
    have entered := h.enter (l := l) (fun a ha => (taken a ha).1) fun a ha => (taken a ha).2
    rw [idle, List.append_nil] at entered
    exact entered
  | step l input =>
    obtain ⟨op, rest, r, now, hp, rfl⟩ := next_step hn
    exact h.perform now hp
  | post l =>
    cases hn
    refine ⟨fun k => ?_, h.unborn, h.guarded⟩
    have moved := tally_snoc (fun f => f.held.count k) s.pendingFunctors_ l .task
    have nothing : Functor.task.held.count k = 0 := rfl
    have before := h.balance k
    unfold owners at before ⊢
    simp only
    omega
  | destroy order threads =>
    obtain ⟨-, rfl⟩ := guard_met hn
    have taken : ∀ a ∈ order.map (Op.destroyItem (Λ := Λ)) ++
        threads.flatMap (fun l => [.quit l, .join l]),
        (∀ k, releases k a = 0) ∧ uses a = [] :=
      teardown_spec order threads (fun _ => ⟨fun _ => rfl, rfl⟩)
        fun _ => ⟨⟨fun _ => rfl, rfl⟩, fun _ => rfl, rfl⟩
    have entered := h.enter (l := main) (fun a ha => (taken a ha).1) fun a ha => (taken a ha).2
    exact ⟨entered.balance, entered.unborn, entered.guarded⟩

/-- The use counts are right in every run, the server's destruction included. -/
theorem server_accounted {ok : State Λ → Action Λ → Prop} (h : (server main).Reachable ok s) :
    Accounted s := by
  refine h.invariant (P := Accounted) (fun s₀ hi => ?_) fun _ _ _ hs _ hn => hs.next hn
  obtain ⟨map, -, -, -, born, idle⟩ := hi
  refine ⟨fun k => ?_, fun k _ => (born k).1, fun l => ?_⟩
  · have onStacks : tally (releases k) s₀.ops = 0 := tally_of_nil fun l => (idle l).1
    have queues : tally (fun f => f.held.count k) s₀.pendingFunctors_ = 0 :=
      tally_of_nil fun l => (idle l).2.1
    rw [(born k).1, owners, map, onStacks, queues]
    rfl
  · rw [(idle l).1]
    trivial

theorem Accounted.perform_live {r : State Λ × List (Op Λ)} (h : Accounted s)
    (now : s.ops l = op :: rest) (hp : s.perform main l input op = some r)
    (other : op ≠ .newConnection) (j : ℕ) :
    (r.1.conns j).sockfd = (s.conns j).sockfd ∧ (0 < r.1.refs j → 0 < s.refs j) := by
  have taken : ∀ held : List ℕ, (∀ k ∈ held, 0 < s.refs k) →
      0 < (s.retain held).refs j → 0 < s.refs j := by
    intro held live hj
    by_cases mem : j ∈ held
    · exact live j mem
    · simpa [State.retain, List.count_eq_zero.mpr mem] using hj
  by_cases stays : moves op = false
  · obtain ⟨held, borrows⟩ := perform_borrows hp stays
    exact ⟨borrows.sockfd j, borrows.frame.refs ▸ taken held fun k => h.held now borrows⟩
  cases op with
  | release k =>
    cases hp
    refine ⟨rfl, fun hj => ?_⟩
    by_cases same : j = k
    · subst same
      simp only [State.release, Function.update_self] at hj
      omega
    · simpa [State.release, Function.update_of_ne same] using hj
  | call f =>
    cases hp
    cases f with
    | removeConnectionInLoop k =>
      have live := (h.used (k := k) now (by simp [uses, Functor.held])).2
      have entry := (s.record (.removeConnectionInLoop k)).erase_refs live j
      have conns := ((s.record (.removeConnectionInLoop k)).erase_frame k).1
      exact ⟨congrArg (fun conns => (conns j).sockfd) conns,
        fun hj => Nat.lt_of_lt_of_le hj entry.1⟩
    | _ => exact absurd rfl stays
  | emplaceBack loop f =>
    cases hp
    exact ⟨rfl, taken f.held fun k hk => (h.used now hk).2⟩
  | newConnection => exact absurd rfl other
  | doPendingFunctors =>
    cases hp
    exact ⟨rfl, id⟩
  | destroyItem k =>
    cases hp
    unfold State.destroyItem
    split_ifs <;> exact ⟨rfl, id⟩
  | join loop =>
    obtain ⟨-, rfl⟩ := guard_met hp
    exact ⟨rfl, id⟩
  | _ => exact absurd rfl stays

def Distinct (s : State Λ) : Prop :=
  ∀ j k, 0 < s.refs j → 0 < s.refs k → (s.conns j).sockfd = (s.conns k).sockfd → j = k

theorem Distinct.perform {r : State Λ × List (Op Λ)} (h : Distinct s) (accounted : Accounted s)
    (now : s.ops l = op :: rest) (hp : s.perform main l input op = some r) : Distinct r.1 := by
  by_cases accept : op = .newConnection
  · subst accept
    simp only [State.perform] at hp
    cases accepted : input.accepted with
    | none =>
      rw [accepted] at hp
      cases hp
      exact h
    | some pair =>
      rw [accepted] at hp
      obtain ⟨sockfd, ioLoop⟩ := pair
      obtain ⟨⟨open_, -⟩, rfl⟩ := guard_met hp
      have old : ∀ j, j ≠ s.nextConnId_ → 0 < s.refs j →
          (s.conns j).sockfd ≠ sockfd := fun j other live => by
        by_cases young : s.nextConnId_ ≤ j
        · exact absurd (accounted.unborn j young) (Nat.ne_of_gt live)
        · exact open_ j (Nat.lt_of_not_le young) live
      intro j k hj hk same
      by_cases newJ : j = s.nextConnId_ <;> by_cases newK : k = s.nextConnId_
      · rw [newJ, newK]
      · subst newJ
        simp only [Function.update_self, Function.update_of_ne newK] at hk same
        exact absurd same.symm (old k newK hk)
      · subst newK
        simp only [Function.update_self, Function.update_of_ne newJ] at hj same
        exact absurd same (old j newJ hj)
      · simp only [Function.update_of_ne newJ, Function.update_of_ne newK] at hj hk same
        exact h j k hj hk same
  · intro j k hj hk same
    obtain ⟨fdJ, liveJ⟩ := accounted.perform_live now hp accept j
    obtain ⟨fdK, liveK⟩ := accounted.perform_live now hp accept k
    exact h j k (liveJ hj) (liveK hk) (by rw [← fdJ, ← fdK, same])

theorem server_distinct {ok : State Λ → Action Λ → Prop} (h : (server main).Reachable ok s) :
    Distinct s := by
  refine h.invariant_under (I := Accounted) (P := Distinct) (fun _ => server_accounted)
    (fun s₀ hi j _ hj => ?_) fun s a t accounted hs _ hn => ?_
  · obtain ⟨-, -, -, -, born, -⟩ := hi
    exact absurd (born j).1 (Nat.ne_of_gt hj)
  · cases a with
    | iterate l active =>
      obtain ⟨-, rfl⟩ := guard_met hn
      exact hs
    | step l input =>
      obtain ⟨op, rest, r, now, hp, rfl⟩ := next_step hn
      exact hs.perform accounted now hp
    | post l =>
      cases hn
      exact hs
    | destroy order threads =>
      obtain ⟨-, rfl⟩ := guard_met hn
      exact hs

/-- The connections whose members an operation of the thread of `l` uses. The dispatch of a polled
event, which uses the channel only, is not counted here. -/
def worksOn (s : State Λ) (l : Λ) : Op Λ → List ℕ
  | .release k => [k]
  | .destroyItem k => if k ∈ s.connections_ then [k] else []
  | .doPendingFunctors => (s.pendingFunctors_ l).flatMap Functor.held
  | .join loop => (s.pendingFunctors_ loop).flatMap Functor.held
  | op => uses op

omit [DecidableEq Λ] in
theorem Accounted.live (h : Accounted s) (owned : Owned s k) : 0 < s.refs k := by
  rw [h.balance, owners]
  rcases owned with mem | ⟨l, f, hf, mem⟩ | ⟨l, mem⟩
  · have entry := List.count_pos_iff.mpr mem
    omega
  · have queued : 0 < tally (fun f => f.held.count k) s.pendingFunctors_ :=
      tally_pos.mpr ⟨l, f, hf, List.count_pos_iff.mpr mem⟩
    omega
  · have onStack : 0 < tally (releases k) s.ops :=
      tally_pos.mpr ⟨l, .release k, mem, by simp [releases]⟩
    omega

omit [DecidableEq Λ] in
/-- Whatever an operation works on is held by a pointer that it does not let go. -/
theorem Accounted.works (h : Accounted s) (now : s.ops l = op :: rest) (hk : k ∈ worksOn s l op) :
    0 < s.refs k := by
  have queued : ∀ loop, k ∈ (s.pendingFunctors_ loop).flatMap Functor.held → 0 < s.refs k :=
    fun loop mem => by
      obtain ⟨f, hf, held⟩ := List.mem_flatMap.mp mem
      exact h.live (.inr (.inl ⟨loop, f, hf, held⟩))
  cases op with
  | release j =>
    obtain rfl := List.mem_singleton.mp hk
    exact h.live (.inr (.inr ⟨l, now ▸ List.mem_cons_self⟩))
  | destroyItem j =>
    simp only [worksOn] at hk
    split_ifs at hk with mem
    · obtain rfl := List.mem_singleton.mp hk
      exact h.live (.inl mem)
    · cases hk
  | doPendingFunctors => exact queued l hk
  | join loop => exact queued loop hk
  | _ => exact (h.used now hk).2

/-- Only the release of the last pointer ends a connection. -/
theorem Accounted.perform_ends {r : State Λ × List (Op Λ)} (h : Accounted s)
    (now : s.ops l = op :: rest) (hp : s.perform main l input op = some r)
    (live : 0 < s.refs k) (dead : r.1.refs k = 0) : op = .release k := by
  have kept : s.refs k ≤ r.1.refs k → op = .release k := fun kept => by omega
  by_cases stays : moves op = false
  · obtain ⟨held, borrows⟩ := perform_borrows hp stays
    refine kept ?_
    rw [borrows.frame.refs]
    exact Nat.le_add_right _ _
  cases op with
  | release j =>
    cases hp
    by_cases same : k = j
    · rw [same]
    · refine kept (Nat.le_of_eq ?_)
      simp [State.release, Function.update_of_ne same]
  | call f =>
    cases hp
    cases f with
    | removeConnectionInLoop j =>
      by_cases same : k = j
      · -- the entry's pointer is not the last one: the functor holds the connection, too
        subst same
        have used := h.used (k := k) now (by simp [uses, Functor.held])
        have entry := ((s.record (.removeConnectionInLoop k)).erase_refs used.2 k).2
        have balance := h.balance k
        have onStack : 0 < tally (releases k) s.ops :=
          tally_pos.mpr ⟨l, .release k, now ▸ List.mem_cons_of_mem _ used.1, by simp [releases]⟩
        simp only [State.call, State.removeConnectionInLoop] at dead
        rw [dead] at entry
        simp only [State.record, owners] at entry balance
        omega
      · refine kept (Nat.le_of_eq ?_)
        simp only [State.call, State.removeConnectionInLoop, State.erase]
        split_ifs
        · simp [State.release, State.record, Function.update_of_ne same]
        · rfl
    | _ => exact absurd rfl stays
  | emplaceBack loop f =>
    cases hp
    exact kept (Nat.le_add_right _ _)
  | newConnection =>
    rcases State.newConnection_cases hp with rfl | ⟨sockfd, ioLoop, -, rfl⟩
    · exact kept (Nat.le_refl _)
    · by_cases new : k = s.nextConnId_
      · simp [new] at dead
      · refine kept (Nat.le_of_eq ?_)
        simp only [Function.update_of_ne new]
  | doPendingFunctors =>
    cases hp
    exact kept (Nat.le_refl _)
  | destroyItem j =>
    cases hp
    refine kept ?_
    simp only [State.destroyItem]
    split_ifs <;> exact Nat.le_refl _
  | join loop =>
    obtain ⟨-, rfl⟩ := guard_met hp
    exact kept (Nat.le_refl _)
  | _ => exact absurd rfl stays

omit [Fintype Λ] in
theorem perform_nextConnId {r : State Λ × List (Op Λ)}
    (hp : s.perform main l input op = some r) : s.nextConnId_ ≤ r.1.nextConnId_ := by
  by_cases stays : moves op = false
  · obtain ⟨held, borrows⟩ := perform_borrows hp stays
    exact borrows.frame.nextConnId_.ge
  cases op with
  | call f =>
    cases hp
    cases f with
    | removeConnectionInLoop j =>
      exact (s.removeConnectionInLoop_passive j).nextConnId_.ge
    | _ => exact absurd rfl stays
  | newConnection =>
    rcases State.newConnection_cases hp with rfl | ⟨sockfd, ioLoop, -, rfl⟩
    · exact Nat.le_refl _
    · exact Nat.le_succ _
  | destroyItem j =>
    cases hp
    exact (s.destroyItem_passive j).nextConnId_.ge
  | join loop =>
    obtain ⟨-, rfl⟩ := guard_met hp
    exact Nat.le_refl _
  | release j | emplaceBack loop f | doPendingFunctors =>
    cases hp
    exact Nat.le_refl _
  | _ => exact absurd rfl stays

def Gone (s : State Λ) (k : ℕ) : Prop := k < s.nextConnId_ ∧ s.refs k = 0

theorem Gone.perform {r : State Λ × List (Op Λ)} (h : Gone s k) (accounted : Accounted s)
    (now : s.ops l = op :: rest) (hp : s.perform main l input op = some r) : Gone r.1 k := by
  refine ⟨Nat.lt_of_lt_of_le h.1 (perform_nextConnId hp), ?_⟩
  by_cases accept : op = .newConnection
  · subst accept
    rcases State.newConnection_cases hp with rfl | ⟨sockfd, ioLoop, -, rfl⟩
    · exact h.2
    · simp only [Function.update_of_ne (Nat.ne_of_lt h.1)]
      exact h.2
  · by_contra alive
    have live := (accounted.perform_live now hp accept k).2 (Nat.pos_of_ne_zero alive)
    exact Nat.ne_of_gt live h.2

theorem Gone.next {a : Action Λ} (h : Gone s k) (accounted : Accounted s)
    (hn : next main s a = some t) : Gone t k := by
  cases a with
  | iterate l active =>
    obtain ⟨-, rfl⟩ := guard_met hn
    exact h
  | step l input =>
    obtain ⟨op, rest, r, now, hp, rfl⟩ := next_step hn
    exact h.perform accounted now hp
  | post l =>
    cases hn
    exact h
  | destroy order threads =>
    obtain ⟨-, rfl⟩ := guard_met hn
    exact h

end Accounts

end TinyNetwork.PointerAccounts
