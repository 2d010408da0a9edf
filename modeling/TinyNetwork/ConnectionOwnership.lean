import TinyNetwork.PointerAccounts

/-! Why a registered connection is always owned. An operation that is still to run finds its
connection in a known state, a connection leaves the map only with its removal already on
its way, and until that has run the pointer that travels with it keeps the connection
alive. -/
namespace TinyNetwork.ConnectionOwnership
open Transition PendingWork TcpServer PointerAccounts

variable {Λ : Type*}

def Registered (s : State Λ) (k : ℕ) : Prop :=
  s.channels_ (s.conns k).ioLoop (s.conns k).sockfd = some k

def Waiting (s : State Λ) (l : Λ) (k : ℕ) : Prop :=
  (s.conns k).state_ = .kConnecting ∧ k ∈ s.connections_ ∧ (s.conns k).ioLoop = l

def Serving (s : State Λ) (l : Λ) (k : ℕ) : Prop :=
  (s.conns k).ioLoop = l ∧ s.channels_ l (s.conns k).sockfd = some k

def Closed (s : State Λ) (k : ℕ) : Prop := (s.conns k).state_ = .kDisconnected

/-- The state in which a functor finds its connection when the loop `l` calls it. -/
def Expected (s : State Λ) (l : Λ) : TcpServer.Functor → Prop
  | .connectEstablished k => Waiting s l k
  | .connectDestroyed k => Closed s k ∧ (s.conns k).ioLoop = l
  | .removeConnectionInLoop k => Closed s k
  | .notify _ => True
  | .task => True

/-- The state in which an operation of the thread of `l` finds its connection, as long as the
server is alive. -/
def Ready (s : State Λ) (l : Λ) : Op Λ → Prop
  | .call f => Expected s l f
  | .runInLoop loop f => Expected s loop f ∧ ∀ k, f ≠ .connectDestroyed k
  | .queueInLoop loop f => Expected s loop f
  | .emplaceBack loop f => Expected s loop f
  | .handleEvent k _ => Serving s l k
  | .handleRead k => Serving s l k
  | .handleWrite k => Serving s l k
  | .handleClose k => Serving s l k
  | .removeConnection k => Closed s k
  | .remove k => Closed s k ∧ (s.conns k).ioLoop = l
  | .destroyItem _ => False
  | .quit _ => False
  | .join _ => False
  | _ => True

def dispatched : Op Λ → Bool
  | .handleEvent _ _ => true
  | .handleRead _ => true
  | .handleWrite _ => true
  | .handleClose _ => true
  | .doPendingFunctors => true
  | _ => false

def removing : Op Λ → Bool
  | .remove _ => true
  | .call (.connectDestroyed _) => true
  | _ => false

def Phase (ops : List (Op Λ)) : Prop :=
  (∀ a ∈ ops, dispatched a = false) ∨
    ∃ front, ops = front ++ [.doPendingFunctors] ∧
      ∀ a ∈ front, removing a = false ∧ a ≠ .doPendingFunctors

def carried (w : TcpServer.Functor → ℕ) : Op Λ → ℕ
  | .call f => w f
  | .runInLoop _ f => w f
  | .queueInLoop _ f => w f
  | .emplaceBack _ f => w f
  | _ => 0

def establishes (k : ℕ) : TcpServer.Functor → ℕ
  | .connectEstablished j => if j = k then 1 else 0
  | _ => 0

def destroys (k : ℕ) : TcpServer.Functor → ℕ
  | .connectDestroyed j => if j = k then 1 else 0
  | _ => 0

def removes (k : ℕ) : Op Λ → ℕ
  | .remove j => if j = k then 1 else 0
  | op => carried (destroys k) op

structure Same (s t : State Λ) : Prop where
  conns : t.conns = s.conns
  channels_ : t.channels_ = s.channels_
  nextConnId_ : t.nextConnId_ = s.nextConnId_
  destroying : t.destroying = s.destroying

structure Follows (s : State Λ) (l : Λ) (op : Op Λ) (called : List (Op Λ)) : Prop where
  once : ∀ k, load (carried (establishes k)) called ≤ carried (establishes k) op
  left : ∀ k, Registered s k → removes k op ≤ load (removes k) called
  ready : ∀ a ∈ called, Ready s l a
  handled : dispatched op = false → ∀ a ∈ called, dispatched a = false
  drained : removing op = false → ∀ a ∈ called, removing a = false
  inner : ∀ a ∈ called, a ≠ .doPendingFunctors

structure Plain (s : State Λ) (l : Λ) (a : Op Λ) : Prop where
  once : ∀ j, carried (establishes j) a = 0
  ready : Ready s l a
  handled : dispatched a = false
  drained : removing a = false
  inner : a ≠ .doPendingFunctors

section Expectations
variable {s t : State Λ} {l : Λ} {op : Op Λ} {rest called : List (Op Λ)} {k : ℕ}

theorem Phase.step (h : Phase (op :: rest)) (other : op ≠ .doPendingFunctors)
    (handled : dispatched op = false → ∀ a ∈ called, dispatched a = false)
    (drained : removing op = false → ∀ a ∈ called, removing a = false)
    (inner : ∀ a ∈ called, a ≠ .doPendingFunctors) : Phase (called ++ rest) := by
  rcases h with draining | ⟨front, split, handling⟩
  · refine .inl fun a ha => ?_
    rcases List.mem_append.mp ha with new | old
    · exact handled (draining op List.mem_cons_self) a new
    · exact draining a (List.mem_cons_of_mem op old)
  · cases front with
    | nil => exact absurd (List.cons.inj split).1 other
    | cons b front =>
      obtain ⟨rfl, rfl⟩ := List.cons.inj split
      refine .inr ⟨called ++ front, (List.append_assoc _ _ _).symm, fun a ha => ?_⟩
      rcases List.mem_append.mp ha with new | old
      · exact ⟨drained (handling op List.mem_cons_self).1 a new, inner a new⟩
      · exact handling a (List.mem_cons_of_mem op old)

theorem Expected.transfer {f : TcpServer.Functor} (h : Expected s l f)
    (waiting : ∀ j, 0 < establishes j f → Waiting s l j → Waiting t l j)
    (closed : ∀ j, Closed s j → Closed t j ∧ (t.conns j).ioLoop = (s.conns j).ioLoop) :
    Expected t l f := by
  cases f with
  | connectEstablished j => exact waiting j (by simp [establishes]) h
  | connectDestroyed j => exact ⟨(closed j h.1).1, (closed j h.1).2.trans h.2⟩
  | removeConnectionInLoop j => exact (closed j h).1
  | notify j => trivial
  | task => trivial

theorem Ready.transfer (h : Ready s l op)
    (waiting : ∀ loop j, 0 < carried (establishes j) op → Waiting s loop j → Waiting t loop j)
    (serving : dispatched op = true → ∀ j, Serving s l j → Serving t l j)
    (closed : ∀ j, Closed s j → Closed t j ∧ (t.conns j).ioLoop = (s.conns j).ioLoop) :
    Ready t l op := by
  cases op with
  | call f => exact Expected.transfer h (waiting l) closed
  | runInLoop loop f => exact ⟨Expected.transfer h.1 (waiting loop) closed, h.2⟩
  | queueInLoop loop f => exact Expected.transfer h (waiting loop) closed
  | emplaceBack loop f => exact Expected.transfer h (waiting loop) closed
  | handleEvent j revents => exact serving rfl j h
  | handleRead j => exact serving rfl j h
  | handleWrite j => exact serving rfl j h
  | handleClose j => exact serving rfl j h
  | removeConnection j => exact (closed j h).1
  | remove j => exact ⟨(closed j h.1).1, (closed j h.1).2.trans h.2⟩
  | destroyItem j => exact h
  | quit loop => exact h
  | join loop => exact h
  | release j => trivial
  | callback j => trivial
  | newConnection => trivial
  | doPendingFunctors => trivial

theorem destroys_pos {f : TcpServer.Functor} : 0 < destroys k f ↔ f = .connectDestroyed k := by
  cases f with
  | connectDestroyed j =>
    by_cases same : j = k <;> simp [destroys, same]
  | _ => simp [destroys]

theorem removes_uses (h : 0 < removes k op) : k ∈ uses op := by
  have carry : ∀ f : TcpServer.Functor, 0 < destroys k f → k ∈ f.held := fun f hf => by
    rw [destroys_pos.mp hf]
    exact List.mem_singleton.mpr rfl
  cases op with
  | remove j =>
    by_cases same : j = k
    · simp [uses, same]
    · simp [removes, same] at h
  | call f => exact carry f h
  | runInLoop loop f => exact carry f h
  | queueInLoop loop f => exact carry f h
  | emplaceBack loop f => exact carry f h
  | _ => exact absurd h (Nat.lt_irrefl 0)

theorem Registered.same (h : Registered t k) (same : Same s t) : Registered s k := by
  unfold Registered at h ⊢
  rw [same.conns, same.channels_] at h
  exact h

theorem Ready.same (h : Ready s l op) (same : Same s t)
    (kept : ∀ j ∈ s.connections_, j ∈ t.connections_ ∨ Closed s j) : Ready t l op := by
  refine h.transfer (fun loop j _ hj => ?_) (fun _ j hj => ?_) fun j hj => ?_
  · rcases kept j hj.2.1 with mem | closed
    · unfold Waiting at hj ⊢
      rw [same.conns]
      exact ⟨hj.1, mem, hj.2.2⟩
    · exact absurd (closed.symm.trans hj.1) (by decide)
  · unfold Serving at hj ⊢
    rw [same.conns, same.channels_]
    exact hj
  · unfold Closed at hj ⊢
    rw [same.conns]
    exact ⟨hj, rfl⟩

theorem registered_setState {state : StateE} {j : ℕ} :
    Registered (s.setState k state) j ↔ Registered s j := by
  simp only [Registered, State.setState_ioLoop, State.setState_sockfd]
  exact Iff.rfl

theorem Serving.setState {state : StateE} {j : ℕ} (h : Serving s l j) :
    Serving (s.setState k state) l j := by
  simp only [Serving, State.setState_ioLoop, State.setState_sockfd]
  exact h

theorem follows_plain (plain : ∀ a ∈ called, Plain s l a)
    (left : ∀ j, Registered s j → removes j op = 0) : Follows s l op called where
  once j := by
    rw [load_eq_zero fun a ha => (plain a ha).once j]
    exact Nat.zero_le _
  left j hj := by
    rw [left j hj]
    exact Nat.zero_le _
  ready a ha := (plain a ha).ready
  handled _ a ha := (plain a ha).handled
  drained _ a ha := (plain a ha).drained
  inner a ha := (plain a ha).inner

theorem plain_release (j : ℕ) : Plain s l (.release j) :=
  ⟨fun _ => rfl, trivial, rfl, rfl, by simp⟩

theorem plain_callback (j : ℕ) : Plain s l (.callback j) :=
  ⟨fun _ => rfl, trivial, rfl, rfl, by simp⟩

theorem plain_notify (loop : Λ) (j : ℕ) : Plain s l (.queueInLoop loop (.notify j)) :=
  ⟨fun _ => rfl, trivial, rfl, rfl, by simp⟩

theorem Follows.releases {body : List (Op Λ)} (h : Follows s l op body) (held : List ℕ) :
    Follows s l op (body ++ held.map .release) := by
  have released : ∀ a ∈ held.map (Op.release (Λ := Λ)), ∃ j, a = .release j := fun a ha => by
    obtain ⟨j, -, rfl⟩ := List.mem_map.mp ha
    exact ⟨j, rfl⟩
  have both : ∀ {P : Op Λ → Prop}, (∀ a ∈ body, P a) → (∀ j, P (.release j)) →
      ∀ a ∈ body ++ held.map .release, P a := by
    intro P inBody inRest a ha
    rcases List.mem_append.mp ha with mem | mem
    · exact inBody a mem
    · obtain ⟨j, rfl⟩ := released a mem
      exact inRest j
  refine ⟨fun j => ?_, fun j hj => ?_, both h.ready fun _ => trivial,
    fun silent => both (h.handled silent) fun _ => rfl,
    fun silent => both (h.drained silent) fun _ => rfl, both h.inner fun _ => by simp⟩
  · have zero : load (carried (establishes j)) (held.map (Op.release (Λ := Λ))) = 0 :=
      load_eq_zero fun a ha => by
        obtain ⟨j, rfl⟩ := released a ha
        rfl
    rw [load_append, zero]
    exact h.once j
  · rw [load_append]
    exact (h.left j hj).trans (Nat.le_add_right _ _)

theorem follows_pass {a : Op Λ} {f : TcpServer.Functor} (ready : Ready s l a)
    (before : ∀ w, carried w op = w f) (after : ∀ w, carried w a = w f)
    (plain : ∀ j, removes j op = carried (destroys j) op ∧ removes j a = carried (destroys j) a)
    (quiet : dispatched a = false ∧ removing a = false) (inner : a ≠ .doPendingFunctors) :
    Follows s l op [a] where
  once j := by rw [load_cons, before, after, load_nil, Nat.add_zero]
  left j _ := by rw [load_cons, (plain j).1, (plain j).2, before, after, load_nil, Nat.add_zero]
  ready := by simpa using ready
  handled _ := by simpa using quiet.1
  drained _ := by simpa using quiet.2
  inner := by simpa using inner

theorem follows_handle (serving : Serving s l k)
    (handlers : ∀ a ∈ called, a = .handleClose k ∨ a = .handleRead k ∨ a = .handleWrite k)
    (handling : dispatched op = true) (left : ∀ j, removes j op = 0) : Follows s l op called := by
  refine ⟨fun j => ?_, fun j _ => ?_, fun a ha => ?_, fun silent => ?_, fun _ a ha => ?_,
    fun a ha => ?_⟩
  · rw [load_eq_zero fun a ha => by rcases handlers a ha with rfl | rfl | rfl <;> rfl]
    exact Nat.zero_le _
  · rw [left]
    exact Nat.zero_le _
  · rcases handlers a ha with rfl | rfl | rfl <;> exact serving
  · rw [handling] at silent
    cases silent
  · rcases handlers a ha with rfl | rfl | rfl <;> rfl
  · rcases handlers a ha with rfl | rfl | rfl <;> simp

variable [DecidableEq Λ]

theorem registered_setChannel {entry : Option ℕ} {j : ℕ} :
    Registered (s.setChannel k entry) j ↔
      if (s.conns j).ioLoop = (s.conns k).ioLoop ∧ (s.conns j).sockfd = (s.conns k).sockfd then
        entry = some j else Registered s j := by
  have entries := s.setChannel_apply k entry (s.conns j).ioLoop (s.conns j).sockfd
  unfold Registered
  split_ifs at entries ⊢ with own
  · exact ⟨fun h => entries.symm.trans h, fun h => entries.trans h⟩
  · exact ⟨fun h => entries.symm.trans h, fun h => entries.trans h⟩

theorem Serving.setChannel {entry : Option ℕ} {j : ℕ} (h : Serving s l j)
    (free : (s.conns j).sockfd ≠ (s.conns k).sockfd) : Serving (s.setChannel k entry) l j := by
  refine ⟨h.1, ?_⟩
  have entries := s.setChannel_apply k entry l (s.conns j).sockfd
  rw [if_neg fun own => free own.2] at entries
  exact entries.trans h.2

theorem ready_update {ops : Λ → List (Op Λ)} {new : List (Op Λ)}
    (old : ∀ j, ∀ a ∈ ops j, Ready s j a) (here : ∀ a ∈ new, Ready s l a) :
    ∀ j, ∀ a ∈ Function.update ops l new j, Ready s j a :=
  forall_update (P := fun j ops => ∀ a ∈ ops, Ready s j a) old here

theorem expected_update {queues : Λ → List TcpServer.Functor} {new : List TcpServer.Functor}
    (old : ∀ j, ∀ f ∈ queues j, Expected s j f) (here : ∀ f ∈ new, Expected s l f) :
    ∀ j, ∀ f ∈ Function.update queues l new j, Expected s j f :=
  forall_update (P := fun j queue => ∀ f ∈ queue, Expected s j f) old here

theorem phase_update {ops : Λ → List (Op Λ)} {new : List (Op Λ)} (old : ∀ j, Phase (ops j))
    (here : Phase new) : ∀ j, Phase (Function.update ops l new j) :=
  forall_update (P := fun _ => Phase) old here

end Expectations

variable [Fintype Λ]

def establishing (s : State Λ) (k : ℕ) : ℕ :=
  tally (carried (establishes k)) s.ops + tally (establishes k) s.pendingFunctors_

def leaving (s : State Λ) (k : ℕ) : ℕ :=
  tally (removes k) s.ops + tally (destroys k) s.pendingFunctors_

/-- While the server is alive, a registered connection is in `connections_` or leaving. -/
structure Sound (s : State Λ) : Prop where
  alive : s.destroying = false
  keyed : ∀ l fd k, s.channels_ l fd = some k → (s.conns k).ioLoop = l ∧ (s.conns k).sockfd = fd
  young : ∀ k, s.nextConnId_ ≤ k → (s.conns k).state_ = .kConnecting
  established : ∀ k, Registered s k → (s.conns k).state_ ≠ .kConnecting
  connected : ∀ k, (s.conns k).state_ = .kConnected → Registered s k
  owned : ∀ k, Registered s k → k ∈ s.connections_ ∨ 0 < leaving s k
  once : ∀ k, establishing s k ≤ 1
  ready : ∀ l, ∀ op ∈ s.ops l, Ready s l op
  expected : ∀ l, ∀ f ∈ s.pendingFunctors_ l, Expected s l f
  phase : ∀ l, Phase (s.ops l)

section Invariant
variable {s t : State Λ} {l : Λ} {op : Op Λ} {rest called : List (Op Λ)} {k : ℕ}

/-- A registered connection is alive: what removes it runs under a pointer to it. -/
theorem Sound.live (h : Sound s) (accounted : Accounted s) (reg : Registered s k) :
    0 < s.refs k := by
  rw [accounted.balance, owners]
  rcases h.owned k reg with mem | removal
  · have entry := List.count_pos_iff.mpr mem
    omega
  · unfold leaving at removal
    by_cases queued : 0 < tally (destroys k) s.pendingFunctors_
    · obtain ⟨l, f, hf, weight⟩ := tally_pos.mp queued
      have held : 0 < tally (fun f => f.held.count k) s.pendingFunctors_ :=
        tally_pos.mpr ⟨l, f, hf, by simp [destroys_pos.mp weight, Functor.held]⟩
      omega
    · obtain ⟨l, op, hop, weight⟩ := tally_pos.mp (show 0 < tally (removes k) s.ops by omega)
      obtain ⟨a, ha, rfl⟩ := (accounted.guarded l).held hop (removes_uses weight)
      have held : 0 < tally (releases k) s.ops :=
        tally_pos.mpr ⟨l, .release k, ha, by simp [releases]⟩
      omega

theorem Sound.free (h : Sound s) (accounted : Accounted s) (distinct : Distinct s)
    (live : 0 < s.refs k) {j : ℕ} (reg : Registered s j) (other : j ≠ k) :
    (s.conns j).sockfd ≠ (s.conns k).sockfd := fun same =>
  other (distinct j k (h.live accounted reg) live same)

theorem Sound.head (h : Sound s) (now : s.ops l = op :: rest) : Ready s l op :=
  h.ready l op (now ▸ List.mem_cons_self)

theorem Sound.tail (h : Sound s) (now : s.ops l = op :: rest) : ∀ a ∈ rest, Ready s l a :=
  fun a ha => h.ready l a (now ▸ List.mem_cons_of_mem op ha)

theorem Sound.absent (h : Sound s) (accounted : Accounted s) (young : s.nextConnId_ ≤ k) :
    k ∉ s.connections_ ∧ ¬Registered s k ∧ ¬Closed s k ∧ establishing s k = 0 := by
  have dead := accounted.unborn k young
  have unmapped : k ∉ s.connections_ := fun mem => by
    have entry := List.count_pos_iff.mpr mem
    have balance := accounted.balance k
    unfold owners at balance
    omega
  have unexpected : ∀ l f, 0 < establishes k f → ¬Expected s l f := fun l f weight expected => by
    cases f with
    | connectEstablished j =>
      by_cases same : j = k
      · subst same
        exact unmapped expected.2.1
      · simp [establishes, same] at weight
    | _ => exact absurd weight (Nat.lt_irrefl 0)
  refine ⟨unmapped, fun reg => Nat.ne_of_gt (h.live accounted reg) dead, fun closed => ?_, ?_⟩
  · exact absurd (closed.symm.trans (h.young k young)) (by decide)
  · by_contra some_
    unfold establishing at some_
    rcases Nat.add_pos_iff_pos_or_pos.mp (Nat.pos_of_ne_zero some_) with inOps | queued
    · obtain ⟨l, op, hop, weight⟩ := tally_pos.mp inOps
      have ready := h.ready l op hop
      cases op with
      | call f => exact unexpected l f weight ready
      | runInLoop loop f => exact unexpected loop f weight ready.1
      | queueInLoop loop f => exact unexpected loop f weight ready
      | emplaceBack loop f => exact unexpected loop f weight ready
      | _ => exact absurd weight (Nat.lt_irrefl 0)
    · obtain ⟨l, f, hf, weight⟩ := tally_pos.mp queued
      exact unexpected l f weight (h.expected l f hf)

theorem Sound.move (h : Sound s) (same : Same s t)
    (kept : ∀ j ∈ s.connections_, j ∈ t.connections_ ∨ Closed s j)
    (once : ∀ k, establishing t k ≤ 1)
    (owned : ∀ k, Registered s k → k ∈ t.connections_ ∨ 0 < leaving t k)
    (ready : ∀ l, ∀ op ∈ t.ops l, Ready s l op)
    (expected : ∀ l, ∀ f ∈ t.pendingFunctors_ l, Expected s l f)
    (phase : ∀ l, Phase (t.ops l)) : Sound t where
  alive := same.destroying.trans h.alive
  keyed := by
    rw [same.channels_, same.conns]
    exact h.keyed
  young := by
    rw [same.nextConnId_, same.conns]
    exact h.young
  established k hk := by
    rw [same.conns]
    exact h.established k (hk.same same)
  connected k hk := by
    unfold Registered
    rw [same.conns, same.channels_]
    rw [same.conns] at hk
    exact h.connected k hk
  owned k hk := owned k (hk.same same)
  once := once
  ready l a ha := (ready l a ha).same same kept
  expected l f hf := by
    have call : Ready s l (.call f) := expected l f hf
    exact call.same same kept
  phase := phase

theorem Sound.setState (h : Sound s) (reg : Registered s k) {state : StateE}
    (later : state ≠ .kConnecting) (closed : Closed s k → state = .kDisconnected) :
    Sound (s.setState k state) := by
  have begun := h.established k reg
  have kept : ∀ l op, Ready s l op → Ready (s.setState k state) l op := by
    refine fun l op hop => hop.transfer (fun loop j _ hj => ?_) (fun _ j hj => hj.setState)
      fun j hj => ?_
    · have other : j ≠ k := fun same => begun (same ▸ hj.1)
      exact ⟨(s.setState_other state other).trans hj.1, hj.2.1, (s.setState_ioLoop ..).trans hj.2.2⟩
    · refine ⟨?_, s.setState_ioLoop ..⟩
      by_cases same : j = k
      · subst same
        exact (s.setState_self ..).trans (closed hj)
      · exact (s.setState_other state same).trans hj
  refine ⟨h.alive, fun l fd j hj => ?_, fun j hj => ?_, fun j hj => ?_, fun j hj => ?_,
    fun j hj => ?_, h.once, fun l a ha => kept l a (h.ready l a ha), fun l f hf => ?_, h.phase⟩
  · simp only [State.setState_ioLoop, State.setState_sockfd]
    exact h.keyed l fd j hj
  · have other : j ≠ k := fun same => begun (same ▸ h.young j hj)
    exact (s.setState_other state other).trans (h.young j hj)
  · by_cases same : j = k
    · subst same
      exact (s.setState_self ..).trans_ne later
    · rw [s.setState_other state same]
      exact h.established j (registered_setState.mp hj)
  · by_cases same : j = k
    · subst same
      exact registered_setState.mpr reg
    · rw [s.setState_other state same] at hj
      exact registered_setState.mpr (h.connected j hj)
  · exact h.owned j (registered_setState.mp hj)
  · exact kept l (.call f) (h.expected l f hf)

theorem Sound.accept {sockfd : ℕ} {ioLoop : Λ} (h : Sound s) (accounted : Accounted s) :
    Sound { s with
      conns := Function.update s.conns s.nextConnId_ ⟨ioLoop, sockfd, .kConnecting⟩
      nextConnId_ := s.nextConnId_ + 1
      connections_ := s.nextConnId_ :: s.connections_ } := by
  obtain ⟨unmapped, unregistered, unclosed, none⟩ := h.absent accounted (Nat.le_refl _)
  have entered : ∀ {l fd j}, s.channels_ l fd = some j → j ≠ s.nextConnId_ := by
    rintro l fd j hj rfl
    refine unregistered ?_
    rw [Registered, (h.keyed l fd _ hj).1, (h.keyed l fd _ hj).2]
    exact hj
  have conns : ∀ {j}, j ≠ s.nextConnId_ → Function.update s.conns s.nextConnId_
      ⟨ioLoop, sockfd, .kConnecting⟩ j = s.conns j := fun other => Function.update_of_ne other _ _
  have registered : ∀ {j}, Registered { s with
      conns := Function.update s.conns s.nextConnId_ ⟨ioLoop, sockfd, .kConnecting⟩ } j →
      j ≠ s.nextConnId_ ∧ Registered s j := fun {j} reg => by
    have other := entered reg
    simp only [Registered, conns other] at reg
    exact ⟨other, reg⟩
  have kept : ∀ l op, Ready s l op → Ready { s with
      conns := Function.update s.conns s.nextConnId_ ⟨ioLoop, sockfd, .kConnecting⟩
      connections_ := s.nextConnId_ :: s.connections_ } l op := by
    refine fun l op hop => hop.transfer (fun loop j _ hj => ?_) (fun _ j hj => ?_) fun j hj => ?_
    · have other : j ≠ s.nextConnId_ := fun same => unmapped (same ▸ hj.2.1)
      simp only [Waiting, conns other]
      exact ⟨hj.1, List.mem_cons_of_mem _ hj.2.1, hj.2.2⟩
    · have other := entered hj.2
      simp only [Serving, conns other]
      exact hj
    · have other : j ≠ s.nextConnId_ := fun same => unclosed (same ▸ hj)
      simp only [Closed, conns other]
      exact ⟨hj, trivial⟩
  refine ⟨h.alive, fun l fd j hj => ?_, fun j hj => ?_, fun j hj => ?_, fun j hj => ?_,
    fun j hj => ?_, h.once, fun l a ha => ?_, fun l f hf => ?_, h.phase⟩
  · simp only [conns (entered hj)]
    exact h.keyed l fd j hj
  · simp only [conns (Nat.ne_of_gt hj)]
    exact h.young j (Nat.le_of_succ_le hj)
  · obtain ⟨other, reg⟩ := registered hj
    simp only [conns other]
    exact h.established j reg
  · by_cases same : j = s.nextConnId_
    · subst same
      simp at hj
    · simp only [Registered, conns same] at hj ⊢
      exact h.connected j hj
  · exact (h.owned j (registered hj).2).imp_left (List.mem_cons_of_mem _)
  · exact kept l a (h.ready l a ha)
  · exact kept l (.call f) (h.expected l f hf)

end Invariant

section Steps
variable [DecidableEq Λ] {s t : State Λ} {main l : Λ} {op : Op Λ} {rest called : List (Op Λ)}
  {input : Input Λ} {k : ℕ}

theorem Sound.step (h : Sound s) (now : s.ops l = op :: rest) (other : op ≠ .doPendingFunctors)
    (same : Same s t) (pending : t.pendingFunctors_ = s.pendingFunctors_)
    (kept : ∀ j ∈ s.connections_,
      j ∈ t.connections_ ∨ Closed s j ∧ 0 < load (removes j) called)
    (follows : Follows s l op called) :
    Sound { t with ops := Function.update s.ops l (called ++ rest) } := by
  have before := h.ready l
  have phase := h.phase l
  rw [now] at before phase
  refine h.move ⟨same.1, same.2, same.3, same.4⟩ (fun j hj => (kept j hj).imp_right And.left)
    (fun j => ?_) (fun j hj => ?_) ?_ ?_ ?_
  · have moved := tally_step (carried (establishes j)) called now
    have called := follows.once j
    have once := h.once j
    simp only [establishing, pending] at once ⊢
    omega
  · have moved := tally_step (removes j) called now
    have left := follows.left j hj
    have part := load_le_tally (w := removes j) (g := s.ops) l
    rw [now, load_cons] at part
    rcases h.owned j hj with mem | leaves
    · refine (kept j mem).imp_right fun gone => ?_
      have weight := gone.2
      simp only [leaving, pending]
      omega
    · right
      simp only [leaving, pending] at leaves ⊢
      omega
  · refine ready_update h.ready fun a ha => ?_
    rcases List.mem_append.mp ha with new | old
    · exact follows.ready a new
    · exact before a (List.mem_cons_of_mem op old)
  · simp only [pending]
    exact h.expected
  · exact phase_update h.phase
      (phase.step other follows.handled follows.drained follows.inner)

theorem Sound.keep (h : Sound s) (now : s.ops l = op :: rest) (other : op ≠ .doPendingFunctors)
    (same : Same s t) (pending : t.pendingFunctors_ = s.pendingFunctors_)
    (map : t.connections_ = s.connections_) (follows : Follows s l op called) :
    Sound { t with ops := Function.update s.ops l (called ++ rest) } :=
  h.step now other same pending (fun _ hj => .inl (map.symm ▸ hj)) follows

theorem Sound.quiet (h : Sound s) (now : s.ops l = op :: rest) (other : op ≠ .doPendingFunctors)
    (same : Same s t) (pending : t.pendingFunctors_ = s.pendingFunctors_)
    (map : t.connections_ = s.connections_) (silent : ∀ j, removes j op = 0)
    (plain : ∀ a ∈ called, Plain s l a) :
    Sound { t with ops := Function.update s.ops l (called ++ rest) } :=
  h.keep now other same pending map (follows_plain plain fun j _ => silent j)

theorem Sound.establish (h : Sound s) (waiting : Waiting s l k) (born : k < s.nextConnId_)
    (last : establishing s k = 0)
    (free : ∀ j, Registered s j → (s.conns j).sockfd ≠ (s.conns k).sockfd) :
    Sound ((s.setState k .kConnected).updateChannel k) := by
  have others : ∀ j, (s.conns j).state_ ≠ .kConnecting → j ≠ k := fun j hj same =>
    hj (same ▸ waiting.1)
  have registered : ∀ j, Registered ((s.setState k .kConnected).updateChannel k) j ↔
      j = k ∨ Registered s j := fun j => by
    rw [State.updateChannel, registered_setChannel, registered_setState]
    simp only [State.setState_ioLoop, State.setState_sockfd, Option.some.injEq]
    by_cases same : j = k
    · simp [same]
    · simp only [same, Ne.symm same, if_false_left, false_or]
      exact ⟨fun reg => reg.2, fun reg => ⟨fun own => free j reg own.2, reg⟩⟩
  have serving : ∀ l j, Serving s l j →
      Serving ((s.setState k .kConnected).updateChannel k) l j := fun l j hj => by
    have reg : Registered s j := by
      rw [Registered, hj.1]
      exact hj.2
    exact hj.setState.setChannel (by simpa using free j reg)
  have kept : ∀ l op, carried (establishes k) op = 0 → Ready s l op →
      Ready ((s.setState k .kConnected).updateChannel k) l op := by
    refine fun l op none hop => hop.transfer (fun loop j some_ hj => ?_) (fun _ => serving l)
      fun j hj => ?_
    · have other : j ≠ k := by
        rintro rfl
        omega
      exact ⟨(s.setState_other _ other).trans hj.1, hj.2.1, (s.setState_ioLoop ..).trans hj.2.2⟩
    · have other := others j fun same => absurd (hj.symm.trans same) (by decide)
      exact ⟨(s.setState_other _ other).trans hj, s.setState_ioLoop ..⟩
  unfold establishing at last
  refine ⟨h.alive, fun l fd j hj => ?_, fun j hj => ?_, fun j hj => ?_, fun j hj => ?_,
    fun j hj => ?_, h.once, fun l a ha => kept l a ?_ (h.ready l a ha),
    fun l f hf => kept l (.call f) ?_ (h.expected l f hf), h.phase⟩
  · rw [State.updateChannel, State.setChannel_apply] at hj
    refine ⟨(s.setState_ioLoop ..).trans ?_, (s.setState_sockfd ..).trans ?_⟩
    · split_ifs at hj with own
      · rw [← Option.some.inj hj, own.1, State.setState_ioLoop]
      · exact (h.keyed l fd j hj).1
    · split_ifs at hj with own
      · rw [← Option.some.inj hj, own.2, State.setState_sockfd]
      · exact (h.keyed l fd j hj).2
  · have other : j ≠ k := Nat.ne_of_gt (Nat.lt_of_lt_of_le born hj)
    exact (s.setState_other _ other).trans (h.young j hj)
  · rcases (registered j).mp hj with rfl | reg
    · exact (s.setState_self ..).trans_ne (by decide)
    · have other := others j (h.established j reg)
      exact (s.setState_other _ other).trans_ne (h.established j reg)
  · by_cases same : j = k
    · exact (registered j).mpr (.inl same)
    · exact (registered j).mpr (.inr (h.connected j ((s.setState_other _ same).symm.trans hj)))
  · rcases (registered j).mp hj with rfl | reg
    · exact .inl waiting.2.1
    · exact h.owned j reg
  · by_contra some_
    have weight : 0 < tally (carried (establishes k)) s.ops :=
      tally_pos.mpr ⟨l, a, ha, Nat.pos_of_ne_zero some_⟩
    omega
  · by_contra some_
    have weight : 0 < tally (establishes k) s.pendingFunctors_ :=
      tally_pos.mpr ⟨l, f, hf, Nat.pos_of_ne_zero some_⟩
    omega

theorem Sound.unregister (h : Sound s) (closed : Closed s k)
    (outside : ∀ a ∈ s.ops (s.conns k).ioLoop, dispatched a = false)
    (free : ∀ j, Registered s j → j ≠ k → (s.conns j).sockfd ≠ (s.conns k).sockfd) :
    Sound (s.setChannel k none) := by
  have registered : ∀ {j}, Registered (s.setChannel k none) j → j ≠ k ∧ Registered s j := by
    intro j reg
    rw [registered_setChannel] at reg
    split_ifs at reg with own
    refine ⟨fun same => own ?_, reg⟩
    rw [same]
    exact ⟨rfl, rfl⟩
  have kept : ∀ l op, op ∈ s.ops l ∨ dispatched op = false → Ready s l op →
      Ready (s.setChannel k none) l op := by
    refine fun l op place hop => hop.transfer (fun _ _ _ hj => hj) (fun handled j hj => ?_)
      fun j hj => ⟨hj, rfl⟩
    have reg : Registered s j := by
      rw [Registered, hj.1]
      exact hj.2
    have other : j ≠ k := by
      rintro rfl
      rcases place with mem | silent
      · exact absurd ((outside op (hj.1 ▸ mem)).symm.trans handled) (by decide)
      · exact absurd (silent.symm.trans handled) (by decide)
    exact hj.setChannel (free j reg other)
  refine ⟨h.alive, fun l fd j hj => ?_, h.young, fun j hj => h.established j (registered hj).2,
    fun j hj => ?_, fun j hj => h.owned j (registered hj).2, h.once,
    fun l a ha => kept l a (.inl ha) (h.ready l a ha),
    fun l f hf => kept l (.call f) (.inr rfl) (h.expected l f hf), h.phase⟩
  · rw [State.setChannel_apply] at hj
    split_ifs at hj
    exact h.keyed l fd j hj
  · have reg := h.connected j hj
    have other : j ≠ k := by
      rintro rfl
      exact absurd (closed.symm.trans hj) (by decide)
    rw [registered_setChannel, if_neg fun own => free j reg other own.2]
    exact reg

theorem Sound.callback (h : Sound s) (now : s.ops l = .callback k :: rest) :
    Sound { (s.callback k input).1 with
      ops := Function.update s.ops l ((s.callback k input).2 ++ rest) } := by
  unfold State.callback
  by_cases connected : (s.conns k).state_ = .kConnected
  · have reg := h.connected k connected
    have writes : (if input.writing then s.updateChannel k else s) = s := by
      rw [s.updateChannel_self reg, ite_self]
    simp only [if_pos connected, writes]
    have later : Sound (s.setState k (if input.shutdown then .kDisconnecting else .kConnected)) :=
      h.setState reg (by split_ifs <;> decide) fun closed =>
        absurd (closed.symm.trans connected) (by decide)
    refine later.quiet now (by simp) ⟨rfl, rfl, rfl, rfl⟩ rfl rfl (fun _ => rfl) fun a ha => ?_
    rw [List.eq_of_mem_replicate ha]
    exact plain_notify _ k
  · simp only [if_neg connected]
    exact h.quiet now (by simp) ⟨rfl, rfl, rfl, rfl⟩ rfl rfl (fun _ => rfl) (by simp)

theorem Sound.connectEstablished (h : Sound s) (accounted : Accounted s) (distinct : Distinct s)
    (now : s.ops l = .call (.connectEstablished k) :: rest) :
    Sound { (s.connectEstablished k).1 with
      ops := Function.update s.ops l ((s.connectEstablished k).2 ++ rest) } := by
  have live := (accounted.used (k := k) now (by simp [uses, Functor.held])).2
  have waiting : Waiting s l k := h.head now
  have unregistered : ¬Registered s k := fun reg => h.established k reg waiting.1
  have born : k < s.nextConnId_ := by
    by_contra young
    exact Nat.ne_of_gt live (accounted.unborn k (Nat.le_of_not_lt young))
  -- once the call has left the list, nothing expects the connection unregistered any more
  have popped : Sound { s.retain [k] with
      ops := Function.update s.ops l ([.callback k, .release k] ++ rest) } :=
    h.quiet now (by simp) ⟨rfl, rfl, rfl, rfl⟩ rfl rfl (fun _ => rfl)
      (by simp [plain_callback, plain_release])
  refine popped.establish waiting born ?_ fun j reg => h.free accounted distinct live reg ?_
  · have moved := tally_step (carried (establishes k)) [.callback k, .release k] now
    have once := h.once k
    have own : carried (establishes k) (Op.call (Λ := Λ) (.connectEstablished k)) = 1 := by
      simp [carried, establishes]
    have none : load (carried (establishes k)) [Op.callback (Λ := Λ) k, .release k] = 0 := rfl
    rw [own, none] at moved
    unfold establishing at once ⊢
    show tally (carried (establishes k))
        (Function.update s.ops l ([.callback k, .release k] ++ rest)) +
      tally (establishes k) s.pendingFunctors_ = 0
    omega
  · rintro rfl
    exact unregistered reg

theorem Sound.removeConnectionInLoop (h : Sound s)
    (now : s.ops l = .call (.removeConnectionInLoop k) :: rest) :
    Sound { (s.removeConnectionInLoop k).1 with
      ops := Function.update s.ops l ((s.removeConnectionInLoop k).2 ++ rest) } := by
  have closed : Closed s k := h.head now
  obtain ⟨conns, channels, alive, next, pending, kept⟩ :=
    (s.record (.removeConnectionInLoop k)).erase_frame k
  refine h.step now (by simp) ⟨conns, channels, next, alive⟩ pending (fun j hj => ?_)
    (follows_plain (fun a ha => ?_) fun _ _ => rfl)
  · rcases kept j hj with mem | rfl
    · exact .inl mem
    · exact .inr ⟨closed, by simp [State.removeConnectionInLoop, removes, carried, destroys]⟩
  · rw [List.mem_singleton.mp ha]
    exact ⟨fun _ => rfl, ⟨closed, rfl⟩, rfl, rfl, by simp⟩

theorem Sound.call {f : TcpServer.Functor} (h : Sound s) (accounted : Accounted s)
    (distinct : Distinct s) (now : s.ops l = .call f :: rest) :
    Sound { (s.call f).1 with ops := Function.update s.ops l ((s.call f).2 ++ rest) } := by
  cases f with
  | connectEstablished k => exact h.connectEstablished accounted distinct now
  | connectDestroyed k =>
    obtain ⟨closed, loop⟩ : Closed s k ∧ (s.conns k).ioLoop = l := h.head now
    have quiet : s.connectDestroyed k = (s, [.remove k]) :=
      if_neg fun connected => absurd (closed.symm.trans connected) (by decide)
    rw [State.call, quiet]
    have follows : Follows s l (.call (.connectDestroyed k)) [.remove k] :=
      ⟨fun _ => Nat.zero_le _, fun _ _ => Nat.le_refl _, by simpa using ⟨closed, loop⟩,
        fun _ => by simp [dispatched], fun drains => (by cases drains), by simp⟩
    exact h.keep now (by simp) ⟨rfl, rfl, rfl, rfl⟩ rfl rfl follows
  | removeConnectionInLoop k => exact h.removeConnectionInLoop now
  | notify k =>
    exact h.quiet now (by simp) ⟨rfl, rfl, rfl, rfl⟩ rfl rfl (fun _ => rfl)
      (by simp [State.call, plain_callback])
  | task =>
    exact h.quiet now (by simp) ⟨rfl, rfl, rfl, rfl⟩ rfl rfl (fun _ => rfl) (by simp [State.call])

theorem Sound.handleClose (h : Sound s) (now : s.ops l = .handleClose k :: rest) :
    Sound { (s.handleClose k).1 with
      ops := Function.update s.ops l ((s.handleClose k).2 ++ rest) } := by
  obtain ⟨loop, mapped⟩ : Serving s l k := h.head now
  have reg : Registered s k := by
    rw [Registered, loop]
    exact mapped
  have later : Sound (s.setState k .kDisconnected) := h.setState reg (by decide) fun _ => rfl
  have same : (s.setState k .kDisconnected).updateChannel k = s.setState k .kDisconnected :=
    State.updateChannel_self _ (registered_setState.mpr reg)
  unfold State.handleClose
  rw [same]
  have plain : Plain (s.setState k .kDisconnected) l (.removeConnection k) :=
    ⟨fun _ => rfl, s.setState_self .., rfl, rfl, by simp⟩
  exact later.quiet now (by simp) ⟨rfl, rfl, rfl, rfl⟩ rfl rfl (fun _ => rfl)
    (by simp [plain, plain_callback, plain_release])

theorem Sound.runInLoop {loop : Λ} {f : TcpServer.Functor} (h : Sound s)
    (now : s.ops l = .runInLoop loop f :: rest) :
    Sound { (s.runInLoop l loop f).1 with
      ops := Function.update s.ops l ((s.runInLoop l loop f).2 ++ rest) } := by
  obtain ⟨expected, stays⟩ : Expected s loop f ∧ ∀ k, f ≠ .connectDestroyed k := h.head now
  have quiet : removing (Op.call (Λ := Λ) f) = false := by
    cases f with
    | connectDestroyed k => exact absurd rfl (stays k)
    | _ => rfl
  have follows : Follows s l (.runInLoop loop f)
      [if l = loop then .call f else .queueInLoop loop f] := by
    split_ifs with own
    · subst own
      exact follows_pass expected (fun _ => rfl) (fun _ => rfl) (fun _ => ⟨rfl, rfl⟩)
        ⟨rfl, quiet⟩ (by simp)
    · exact follows_pass expected (fun _ => rfl) (fun _ => rfl) (fun _ => ⟨rfl, rfl⟩)
        ⟨rfl, rfl⟩ (by simp)
  exact h.keep now (by simp) ⟨rfl, rfl, rfl, rfl⟩ rfl rfl
    (follows.releases f.held)

theorem Sound.emplaceBack {loop : Λ} {f : TcpServer.Functor} (h : Sound s)
    (now : s.ops l = .emplaceBack loop f :: rest) :
    Sound { (s.emplaceBack loop f).1 with
      ops := Function.update s.ops l ((s.emplaceBack loop f).2 ++ rest) } := by
  have expected : Expected s loop f := h.head now
  have phase := h.phase l
  rw [now] at phase
  refine h.move ⟨rfl, rfl, rfl, rfl⟩ (fun j hj => .inl hj) (fun j => ?_) (fun j hj => ?_)
    (ready_update h.ready (h.tail now)) (expected_update h.expected fun g hg => ?_)
    (phase_update h.phase (phase.step (by simp) (by simp [State.emplaceBack])
      (by simp [State.emplaceBack]) (by simp [State.emplaceBack])))
  · have moved := tally_step (carried (establishes j)) [] now
    have gained := tally_snoc (establishes j) s.pendingFunctors_ loop f
    have once := h.once j
    simp only [carried, load_nil] at moved
    simp only [establishing, State.emplaceBack] at once gained ⊢
    omega
  · refine (h.owned j hj).imp_right fun leaves => ?_
    have moved := tally_step (removes j) [] now
    have gained := tally_snoc (destroys j) s.pendingFunctors_ loop f
    simp only [removes, carried, load_nil] at moved
    simp only [leaving, State.emplaceBack] at leaves gained ⊢
    omega
  · rcases List.mem_append.mp hg with old | new
    · exact h.expected loop g old
    · exact List.mem_singleton.mp new ▸ expected

theorem Sound.doPendingFunctors (h : Sound s) (now : s.ops l = .doPendingFunctors :: rest) :
    Sound { (s.doPendingFunctors l).1 with
      ops := Function.update s.ops l ((s.doPendingFunctors l).2 ++ rest) } := by
  have last : rest = [] := by
    rcases h.phase l with draining | ⟨front, split, handling⟩
    · have first := draining .doPendingFunctors (now ▸ List.mem_cons_self)
      cases first
    · rw [now] at split
      cases front with
      | nil => exact (List.cons.inj split).2
      | cons b front =>
        exact absurd (List.cons.inj split).1.symm (handling b List.mem_cons_self).2
  subst last
  have member : ∀ a ∈ (s.doPendingFunctors l).2,
      (∃ f ∈ s.pendingFunctors_ l, a = .call f) ∨ ∃ j, a = .release j := fun a ha => by
    rcases List.mem_append.mp ha with call | release
    · obtain ⟨f, hf, rfl⟩ := List.mem_map.mp call
      exact .inl ⟨f, hf, rfl⟩
    · obtain ⟨j, -, rfl⟩ := List.mem_map.mp release
      exact .inr ⟨j, rfl⟩
  have weighs : ∀ (w : Op Λ → ℕ) (v : TcpServer.Functor → ℕ), (∀ f, w (.call f) = v f) →
      (∀ j, w (.release j) = 0) →
      load w (s.doPendingFunctors l).2 = load v (s.pendingFunctors_ l) := fun w v calls zero => by
      have silent : load w (((s.pendingFunctors_ l).flatMap Functor.held).map .release) = 0 :=
        load_eq_zero fun a ha => by
          obtain ⟨j, -, rfl⟩ := List.mem_map.mp ha
          exact zero j
      rw [State.doPendingFunctors, load_append, load_map calls, silent, Nat.add_zero]
  refine h.move ⟨rfl, rfl, rfl, rfl⟩ (fun j hj => .inl hj) (fun j => ?_) (fun j hj => ?_)
    (ready_update h.ready fun a ha => ?_) (expected_update h.expected (by simp))
    (phase_update h.phase (.inl fun a ha => ?_))
  · have moved := tally_step (carried (establishes j)) (s.doPendingFunctors l).2 now
    have lost := tally_clear (establishes j) s.pendingFunctors_ l
    have once := h.once j
    rw [weighs _ (establishes j) (fun _ => rfl) fun _ => rfl] at moved
    simp only [carried] at moved
    simp only [establishing] at once ⊢
    show _ + tally (establishes j) (Function.update s.pendingFunctors_ l []) ≤ _
    omega
  · refine (h.owned j hj).imp_right fun leaves => ?_
    have moved := tally_step (removes j) (s.doPendingFunctors l).2 now
    have lost := tally_clear (destroys j) s.pendingFunctors_ l
    rw [weighs _ (destroys j) (fun _ => rfl) fun _ => rfl] at moved
    simp only [removes, carried] at moved
    simp only [leaving] at leaves ⊢
    show 0 < _ + tally (destroys j) (Function.update s.pendingFunctors_ l [])
    omega
  · rw [List.append_nil] at ha
    rcases member a ha with ⟨f, hf, rfl⟩ | ⟨j, rfl⟩
    · exact h.expected l f hf
    · trivial
  · rw [List.append_nil] at ha
    rcases member a ha with ⟨f, -, rfl⟩ | ⟨j, rfl⟩ <;> rfl

theorem Sound.newConnection {r : State Λ × List (Op Λ)} {accepted : Option (ℕ × Λ)}
    (h : Sound s) (accounted : Accounted s) (now : s.ops l = .newConnection :: rest)
    (hr : s.newConnection accepted = some r) :
    Sound { r.1 with ops := Function.update s.ops l (r.2 ++ rest) } := by
  cases accepted with
  | none =>
    cases hr
    exact h.quiet now (by simp) ⟨rfl, rfl, rfl, rfl⟩ rfl rfl (fun _ => rfl) (by simp)
  | some pair =>
    obtain ⟨sockfd, ioLoop⟩ := pair
    obtain ⟨-, rfl⟩ := guard_met hr
    have fresh := (h.absent accounted (Nat.le_refl s.nextConnId_)).2.2.2
    have accepted : Sound { s with
        conns := Function.update s.conns s.nextConnId_ ⟨ioLoop, sockfd, .kConnecting⟩
        nextConnId_ := s.nextConnId_ + 1
        connections_ := s.nextConnId_ :: s.connections_ } := h.accept accounted
    have phase := h.phase l
    rw [now] at phase
    have ready : Ready { s with
        conns := Function.update s.conns s.nextConnId_ ⟨ioLoop, sockfd, .kConnecting⟩
        connections_ := s.nextConnId_ :: s.connections_ } l
        (.runInLoop ioLoop (.connectEstablished s.nextConnId_)) := by
      simp [Ready, Expected, Waiting]
    refine accepted.move ⟨rfl, rfl, rfl, rfl⟩ (fun j hj => .inl hj) (fun j => ?_) (fun j hj => ?_)
      (ready_update accepted.ready fun a ha => ?_) accepted.expected
      (phase_update h.phase (phase.step (by simp) (fun _ => ?_) (fun _ => ?_) ?_))
    · have moved := tally_step (carried (establishes j))
        [.runInLoop ioLoop (.connectEstablished s.nextConnId_), .release s.nextConnId_] now
      have once := h.once j
      simp only [carried, establishes, load_cons, load_nil] at moved
      simp only [establishing] at once fresh ⊢
      split_ifs at moved with same
      · subst same
        omega
      · omega
    · refine (accepted.owned j hj).imp_right fun leaves => ?_
      have moved := tally_step (removes j)
        [.runInLoop ioLoop (.connectEstablished s.nextConnId_), .release s.nextConnId_] now
      simp only [removes, carried, destroys, load_cons, load_nil] at moved
      simp only [leaving] at leaves ⊢
      omega
    · simp only [List.cons_append, List.nil_append, List.mem_cons] at ha
      rcases ha with rfl | rfl | old
      · exact ready
      · trivial
      · exact accepted.tail now a old
    · simp [dispatched]
    · simp [removing]
    · simp

theorem Sound.remove (h : Sound s) (accounted : Accounted s) (distinct : Distinct s)
    (now : s.ops l = .remove k :: rest) :
    Sound { s.setChannel k none with ops := Function.update s.ops l ([] ++ rest) } := by
  obtain ⟨closed, loop⟩ : Closed s k ∧ (s.conns k).ioLoop = l := h.head now
  have live := (accounted.used (k := k) now (by simp [uses])).2
  have outside : ∀ a ∈ s.ops (s.conns k).ioLoop, dispatched a = false := by
    rw [loop]
    rcases h.phase l with draining | ⟨front, split, handling⟩
    · exact draining
    · rw [now] at split
      cases front with
      | nil => simp at split
      | cons b front =>
        have first := (handling b List.mem_cons_self).1
        rw [← (List.cons.inj split).1] at first
        cases first
  have gone := h.unregister closed outside fun j reg other =>
    h.free accounted distinct live reg other
  refine gone.keep now (by simp) ⟨rfl, rfl, rfl, rfl⟩ rfl rfl
    (follows_plain (by simp) fun j reg => ?_)
  rw [registered_setChannel] at reg
  split_ifs at reg with own
  have other : k ≠ j := by
    rintro rfl
    exact own ⟨rfl, rfl⟩
  simp [removes, other]

theorem Sound.perform {r : State Λ × List (Op Λ)} (h : Sound s) (accounted : Accounted s)
    (distinct : Distinct s) (now : s.ops l = op :: rest)
    (hp : s.perform main l input op = some r) :
    Sound { r.1 with ops := Function.update s.ops l (r.2 ++ rest) } := by
  have ready := h.head now
  cases op with
  | release k =>
    cases hp
    exact h.quiet now (by simp) ⟨rfl, rfl, rfl, rfl⟩ rfl rfl (fun _ => rfl) (by simp)
  | callback k =>
    cases hp
    exact h.callback now
  | call f =>
    cases hp
    exact h.call accounted distinct now
  | runInLoop loop f =>
    cases hp
    exact h.runInLoop now
  | queueInLoop loop f =>
    cases hp
    exact h.keep now (by simp) ⟨rfl, rfl, rfl, rfl⟩ rfl rfl
      ((follows_pass (a := .emplaceBack loop f) ready (fun _ => rfl) (fun _ => rfl)
        (fun _ => ⟨rfl, rfl⟩) ⟨rfl, rfl⟩ (by simp)).releases f.held)
  | emplaceBack loop f =>
    cases hp
    exact h.emplaceBack now
  | handleEvent k revents =>
    cases hp
    unfold State.handleEvent
    split_ifs
    · exact h.keep now (by simp) ⟨rfl, rfl, rfl, rfl⟩ rfl rfl
        ((follows_handle ready (State.handleEventWithGuard_spec k revents) rfl
          fun _ => rfl).releases [k])
    · exact h.quiet now (by simp) ⟨rfl, rfl, rfl, rfl⟩ rfl rfl (fun _ => rfl) (by simp)
  | handleRead k =>
    cases hp
    unfold State.handleRead
    split_ifs
    · exact h.quiet now (by simp) ⟨rfl, rfl, rfl, rfl⟩ rfl rfl (fun _ => rfl)
        (by simp [plain_callback, plain_release])
    · exact h.keep now (by simp) ⟨rfl, rfl, rfl, rfl⟩ rfl rfl
        (follows_handle ready (by simp) rfl fun _ => rfl)
    · exact h.quiet now (by simp) ⟨rfl, rfl, rfl, rfl⟩ rfl rfl (fun _ => rfl) (by simp)
  | handleWrite k =>
    cases hp
    obtain ⟨loop, mapped⟩ := ready
    have same : s.updateChannel k = s := s.updateChannel_self (loop ▸ mapped)
    unfold State.handleWrite
    rw [same]
    split_ifs
    · exact h.quiet now (by simp) ⟨rfl, rfl, rfl, rfl⟩ rfl rfl (fun _ => rfl)
        (by simp [plain_notify])
    · exact h.quiet now (by simp) ⟨rfl, rfl, rfl, rfl⟩ rfl rfl (fun _ => rfl) (by simp)
    · exact h.quiet now (by simp) ⟨rfl, rfl, rfl, rfl⟩ rfl rfl (fun _ => rfl) (by simp)
  | handleClose k =>
    cases hp
    exact h.handleClose now
  | removeConnection k =>
    cases hp
    refine h.quiet (t := (s.removeConnection main k).1) now (by simp) ⟨rfl, rfl, rfl, rfl⟩ rfl
      rfl (fun _ => rfl) fun a ha => ?_
    rw [List.mem_singleton.mp ha]
    exact ⟨fun _ => rfl, ⟨ready, by simp⟩, rfl, rfl, by simp⟩
  | remove k =>
    cases hp
    exact h.remove accounted distinct now
  | newConnection => exact h.newConnection accounted now hp
  | doPendingFunctors =>
    cases hp
    exact h.doPendingFunctors now
  | destroyItem k => exact ready.elim
  | quit loop => exact ready.elim
  | join loop => exact ready.elim

def Alive (_ : State Λ) : Action Λ → Prop
  | .destroy _ _ => False
  | _ => True

instance (s : State Λ) (a : Action Λ) : Decidable (Alive s a) := by
  cases a <;> unfold Alive <;> infer_instance

theorem Sound.iterate (h : Sound s) {active : List Active} (idle : s.ops l = [])
    (reported : ∀ a ∈ active, a.Reported main l s) :
    Sound { s with
      ops := Function.update s.ops l (active.map Active.op ++ [.doPendingFunctors]) } := by
  have entered : ∀ w : Op Λ → ℕ, (∀ a ∈ active.map Active.op ++ [.doPendingFunctors], w a = 0) →
      tally w (Function.update s.ops l (active.map Active.op ++ [.doPendingFunctors])) =
        tally w s.ops := fun w zero => by
    have moved := tally_update w s.ops l (active.map Active.op ++ [.doPendingFunctors])
    rw [idle, load_nil, load_eq_zero zero] at moved
    exact moved
  refine h.move ⟨rfl, rfl, rfl, rfl⟩ (fun j hj => .inl hj) (fun j => ?_) (fun j hj => ?_)
    (ready_update h.ready (round_spec (fun a ha => ?_) trivial)) h.expected
    (phase_update h.phase (.inr ⟨_, rfl, fun a ha => ?_⟩))
  · have none := entered (carried (establishes j))
      (round_spec (fun a _ => by cases a <;> rfl) rfl)
    have once := h.once j
    simp only [establishing] at once ⊢
    omega
  · have none := entered (removes j) (round_spec (fun a _ => by cases a <;> rfl) rfl)
    refine (h.owned j hj).imp_right fun leaves => ?_
    simp only [leaving] at leaves ⊢
    omega
  · have report := reported a ha
    cases a with
    | acceptor => trivial
    | conn k revents => exact report
  · obtain ⟨b, -, rfl⟩ := List.mem_map.mp ha
    cases b <;> exact ⟨rfl, by simp [Active.op]⟩

theorem Sound.post (h : Sound s) : Sound { s with
    pendingFunctors_ :=
      Function.update s.pendingFunctors_ l (s.pendingFunctors_ l ++ [.task]) } := by
  refine h.move ⟨rfl, rfl, rfl, rfl⟩ (fun j hj => .inl hj) (fun j => ?_) (fun j hj => ?_) h.ready
    (expected_update h.expected fun f hf => ?_) h.phase
  · rw [establishing, tally_snoc]
    exact h.once j
  · rw [leaving, tally_snoc]
    exact h.owned j hj
  · rcases List.mem_append.mp hf with old | new
    · exact h.expected l f old
    · rw [List.mem_singleton.mp new]
      trivial

theorem Sound.next {a : Action Λ} (h : Sound s) (accounted : Accounted s) (distinct : Distinct s)
    (alive : Alive s a) (hn : next main s a = some t) : Sound t := by
  cases a with
  | iterate l active =>
    obtain ⟨⟨idle, -, reported⟩, rfl⟩ := guard_met hn
    exact h.iterate idle reported
  | step l input =>
    obtain ⟨op, rest, r, now, hp, rfl⟩ := next_step hn
    exact h.perform accounted distinct now hp
  | post l =>
    cases hn
    exact h.post
  | destroy order threads => exact alive.elim

theorem server_sound (h : (server main).Reachable Alive s) : Sound s := by
  refine h.invariant_under (I := fun s => Accounted s ∧ Distinct s) (P := Sound)
    (fun s hs => ⟨server_accounted hs, server_distinct hs⟩) (fun s₀ hi => ?_)
    fun s a t known hs alive hn => hs.next known.1 known.2 alive hn
  obtain ⟨-, -, alive, -, born, idle⟩ := hi
  have unregistered : ∀ k, ¬Registered s₀ k := fun k reg => by
    rw [Registered, (idle _).2.2.2] at reg
    cases reg
  refine ⟨alive, fun l fd k hk => ?_, fun k _ => (born k).2, fun k reg => ?_, fun k hk => ?_,
    fun k reg => ?_, fun k => ?_, fun l a ha => ?_, fun l f hf => ?_, fun l => ?_⟩
  · rw [(idle l).2.2.2] at hk
    cases hk
  · exact absurd reg (unregistered k)
  · exact absurd ((born k).2.symm.trans hk) (by decide)
  · exact absurd reg (unregistered k)
  · rw [establishing, tally_of_nil fun l => (idle l).1, tally_of_nil fun l => (idle l).2.1]
    exact Nat.zero_le _
  · rw [(idle l).1] at ha
    cases ha
  · rw [(idle l).2.1] at hf
    cases hf
  · rw [(idle l).1]
    exact .inl (by simp)

/-- While the server is alive, a connection in a poller's map has an owner, and its destructor
has not run. -/
theorem registered_owned (h : (server main).Reachable Alive s) {fd : ℕ}
    (mapped : s.channels_ l fd = some k) :
    s.refs k = owners s k ∧ 0 < s.refs k ∧ Owned s k := by
  have accounted := server_accounted h
  have sound := server_sound h
  have reg : Registered s k := by
    rw [Registered, (sound.keyed l fd k mapped).1, (sound.keyed l fd k mapped).2]
    exact mapped
  have live := sound.live accounted reg
  exact ⟨accounted.balance k, live, accounted.owned live⟩

/-- A closed connection is out of `connections_` and still registered: the functor queued for
its loop is its only owner. -/
theorem registered_owned_leaving :
    ∃ s : State Bool, (server true).Reachable Alive s ∧
      (s.channels_ false 7 = some 1 ∧ s.connections_ = []) ∧
      s.refs 1 = owners s 1 ∧ 0 < s.refs 1 ∧ Owned s 1 := by
  have run : ((server true).execute Alive sample
      (accepting ++ hangingUp ++ [.iterate true []] ++ List.replicate 6 (.step true idle))).map
      (fun s => (s.channels_ false 7, s.connections_)) = some (some 1, []) := by decide +kernel
  obtain ⟨s, reached, ends⟩ := System.Reachable.of_replay sample_initial run
  simp only [Prod.mk.injEq] at ends
  exact ⟨s, reached, ends, registered_owned reached ends.1⟩

/-- While the server is alive, the event a thread is about to dispatch is for a live connection. -/
theorem dispatch_live (h : (server main).Reachable Alive s) {revents : EventMask}
    (now : s.ops l = .handleEvent k revents :: rest) : Registered s k ∧ 0 < s.refs k := by
  have sound := server_sound h
  obtain ⟨loop, mapped⟩ : Serving s l k := sound.head now
  have reg : Registered s k := by
    rw [Registered, loop]
    exact mapped
  exact ⟨reg, sound.live (server_accounted h) reg⟩

def joining (sockfd : ℕ) : List (Action Unit) :=
  [.iterate () [.acceptor], .step () { (idle : Input Unit) with accepted := some (sockfd, ()) }] ++
    List.replicate 7 (.step () idle)

/-- Not so in a destroyed server: a callback destroys it, and the next event of the same round is
for a connection that is gone, and its channel with it. -/
theorem dispatch_late : ∃ s : State Unit, (server ()).Reachable Any s ∧
    s.ops () = [.handleEvent 2 EPOLLIN, .doPendingFunctors] ∧ s.refs 2 = 0 := by
  have run : ((server ()).execute Any (vacant ())
      (joining 7 ++ joining 8 ++ [.iterate () [.conn 1 EPOLLIN, .conn 2 EPOLLIN], .step () idle,
        .step () { (idle : Input Unit) with read := 1 }, .destroy [1, 2] []] ++
        List.replicate 19 (.step () idle))).map
      (fun s => (s.ops (), s.refs 2)) =
      some ([.handleEvent 2 EPOLLIN, .doPendingFunctors], 0) := by decide +kernel
  obtain ⟨s, reached, ends⟩ := System.Reachable.of_replay (vacant_initial ()) run
  simp only [Prod.mk.injEq] at ends
  exact ⟨s, reached, ends⟩

/-- Where a connection ends: every operation works on connections that are alive, the dispatch of
an event too as long as the server is. Only the release of the last pointer destroys a connection;
then nobody holds it any more, the descriptor closed with it is no other connection's, and nobody
comes to hold it again. -/
theorem destroyed_once {ok : State Λ → Action Λ → Prop} (h : (server main).Reachable ok s) :
    (∀ l op rest, s.ops l = op :: rest → ∀ k ∈ worksOn s l op, 0 < s.refs k) ∧
    ((server main).Reachable Alive s → ∀ l k revents rest,
      s.ops l = .handleEvent k revents :: rest → 0 < s.refs k) ∧
    (∀ a t, next main s a = some t → ∀ k, 0 < s.refs k → t.refs k = 0 →
      (∃ l input rest, a = .step l input ∧ s.ops l = .release k :: rest) ∧ ¬Owned t k ∧
        ∀ j, 0 < t.refs j → (t.conns j).sockfd ≠ (t.conns k).sockfd) ∧
    ∀ t, (server main).Path Any s t → ∀ k < s.nextConnId_, s.refs k = 0 →
      t.refs k = 0 ∧ ¬Owned t k := by
  have accounted := server_accounted h
  refine ⟨fun l op rest now k hk => accounted.works now hk,
    fun living l k revents rest now => (dispatch_live living now).2,
    fun a t hn k live dead => ?_, fun t run k born dead => ?_⟩
  · have unowned : ¬Owned t k := fun owned => Nat.ne_of_gt ((accounted.next hn).live owned) dead
    cases a with
    | iterate l active =>
      obtain ⟨-, rfl⟩ := guard_met hn
      exact absurd dead (Nat.ne_of_gt live)
    | step l input =>
      obtain ⟨op, rest, r, now, hp, rfl⟩ := next_step hn
      obtain rfl := accounted.perform_ends now hp live dead
      refine ⟨⟨l, input, rest, rfl, now⟩, unowned, fun j alive same => ?_⟩
      cases hp
      by_cases self : j = k
      · exact Nat.ne_of_gt alive (self ▸ dead)
      · simp only [State.release, Function.update_of_ne self] at alive
        exact self (server_distinct h j k alive live same)
    | post l =>
      cases hn
      exact absurd dead (Nat.ne_of_gt live)
    | destroy order threads =>
      obtain ⟨-, rfl⟩ := guard_met hn
      exact absurd dead (Nat.ne_of_gt live)
  · have ends : Accounted t ∧ Gone t k :=
      run.stable (P := fun u => Accounted u ∧ Gone u k)
        (fun u a v held _ hn => ⟨held.1.next hn, held.2.next held.1 hn⟩) ⟨accounted, born, dead⟩
    exact ⟨ends.2.2, fun owned => Nat.ne_of_gt (ends.1.live owned) ends.2.2⟩

theorem destroyed_once_last : ∃ s t : State Bool, (server true).Reachable Any s ∧
    next true s (.step false idle) = some t ∧ (s.refs 1, t.refs 1) = (1, 0) ∧ ¬Owned t 1 ∧
    ∀ j, 0 < t.refs j → (t.conns j).sockfd ≠ (t.conns 1).sockfd := by
  have run : ((server true).execute Any sample
      (accepting ++ hangingUp ++ [.iterate true []] ++ List.replicate 6 (.step true idle) ++
        [.iterate false []] ++ List.replicate 3 (.step false idle))).map
      (fun s => (s.refs 1, (next true s (.step false idle)).map fun t => t.refs 1)) =
      some (1, some 0) := by decide +kernel
  obtain ⟨s, reached, ends⟩ := System.Reachable.of_replay sample_initial run
  simp only [Prod.mk.injEq] at ends
  obtain ⟨t, hn, dead⟩ := Option.map_eq_some_iff.mp ends.2
  obtain ⟨-, unowned, others⟩ := (destroyed_once reached).2.2.1 _ t hn 1 (by omega) dead
  exact ⟨s, t, reached, hn, by rw [ends.1, dead], unowned, others⟩

end Steps

end TinyNetwork.ConnectionOwnership
