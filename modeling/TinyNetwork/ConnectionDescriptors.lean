import TinyNetwork.ConnectionOwnership

/-! The descriptors of a server's connections. The maps of the pollers go by descriptor, and the
kernel gives a descriptor out again as soon as a destructor has closed it. No connection takes
another one's entry by that: an entry stays until its connection removes it, and is gone when
the descriptor is closed. -/
namespace TinyNetwork.ConnectionDescriptors
open Transition TcpServer PointerAccounts ConnectionOwnership

variable {Λ : Type*} [DecidableEq Λ] {s t : State Λ} {main l : Λ} {op : Op Λ} {input : Input Λ}

def Maps (s : State Λ) (op : Op Λ) (t : State Λ) : Prop :=
  t.channels_ = s.channels_ ∨ (∃ k ∈ uses op, t.channels_ = (s.updateChannel k).channels_) ∨
    ∃ k, op = .remove k ∧ t.channels_ = (s.setChannel k none).channels_

theorem maps_same (same : t.channels_ = s.channels_) : Maps s op t := .inl same

theorem maps_update {k : ℕ} (own : k ∈ uses op)
    (set : t.channels_ = (s.updateChannel k).channels_) : Maps s op t := .inr (.inl ⟨k, own, set⟩)

theorem setState_update (s : State Λ) (k : ℕ) (state : StateE) :
    ((s.setState k state).updateChannel k).channels_ = (s.updateChannel k).channels_ := by
  simp only [State.updateChannel, State.setChannel, State.setState_ioLoop, State.setState_sockfd]
  rfl

theorem callback_maps {k : ℕ} : Maps s (.callback k) (s.callback k input).1 := by
  unfold State.callback
  split_ifs
  · exact maps_update (List.mem_singleton_self k) rfl
  · exact maps_update (List.mem_singleton_self k) rfl
  · exact maps_same rfl
  · exact maps_same rfl
  · exact maps_same rfl

theorem call_maps {f : TcpServer.Functor} : Maps s (.call f) (s.call f).1 := by
  cases f with
  | connectEstablished k =>
    exact maps_update (List.mem_singleton_self k) (setState_update s k .kConnected)
  | connectDestroyed k =>
    simp only [State.call, State.connectDestroyed]
    split_ifs
    · exact maps_update (List.mem_singleton_self k) (setState_update s k .kDisconnected)
    · exact maps_same rfl
  | removeConnectionInLoop k =>
    exact maps_same (s.removeConnectionInLoop_passive k).channels_
  | notify k => exact maps_same rfl
  | task => exact maps_same rfl

theorem perform_maps {r : State Λ × List (Op Λ)} (hp : s.perform main l input op = some r) :
    Maps s op r.1 := by
  cases op with
  | callback k =>
    cases hp
    exact callback_maps
  | call f =>
    cases hp
    exact call_maps
  | handleEvent k revents =>
    cases hp
    exact maps_same (s.handleEvent_passive k revents).channels_
  | handleRead k =>
    cases hp
    exact maps_same (s.handleRead_passive k input.read).channels_
  | handleWrite k =>
    cases hp
    simp only [State.handleWrite]
    by_cases drained : input.drained = true
    · rw [if_pos drained]
      exact maps_update (List.mem_singleton_self k) rfl
    · rw [if_neg drained]
      exact maps_same rfl
  | handleClose k =>
    cases hp
    exact maps_update (List.mem_singleton_self k) (setState_update s k .kDisconnected)
  | remove k =>
    cases hp
    exact .inr (.inr ⟨k, rfl, rfl⟩)
  | newConnection =>
    rcases State.newConnection_cases hp with rfl | ⟨sockfd, ioLoop, -, rfl⟩
    · exact maps_same rfl
    · exact maps_same rfl
  | destroyItem k =>
    cases hp
    exact maps_same (s.destroyItem_passive k).channels_
  | join loop =>
    obtain ⟨-, rfl⟩ := guard_met hp
    exact maps_same rfl
  | _ =>
    cases hp
    exact maps_same rfl

variable [Fintype Λ] {k : ℕ} {fd : ℕ}

omit [DecidableEq Λ] in
/-- Whoever is entered under a descriptor has it, and is alive. -/
theorem entered (sound : Sound s) (accounted : Accounted s) (mapped : s.channels_ l fd = some k) :
    (s.conns k).ioLoop = l ∧ (s.conns k).sockfd = fd ∧ 0 < s.refs k := by
  obtain ⟨loop, file⟩ := sound.keyed l fd k mapped
  refine ⟨loop, file, sound.live accounted ?_⟩
  rw [Registered, loop, file]
  exact mapped

/-- A descriptor stands for one connection in all pollers together, and no step gives an entry
to another connection: it stays, or its connection takes it out. When the destructor closes
the descriptor, it is out of every map. -/
structure Descriptors (main : Λ) (s : State Λ) : Prop where
  one : ∀ l m fd j k, s.channels_ l fd = some j → s.channels_ m fd = some k → j = k ∧ l = m
  kept : ∀ a t, Alive s a → next main s a = some t → ∀ l fd k, s.channels_ l fd = some k →
    t.channels_ l fd = some k ∨
      t.channels_ l fd = none ∧ ∃ rest, s.ops l = .remove k :: rest
  closed : ∀ a t, Alive s a → next main s a = some t → ∀ k, 0 < s.refs k → t.refs k = 0 →
    ∀ l, t.channels_ l (s.conns k).sockfd = none

theorem step_keeps {m : Λ} {rest : List (Op Λ)} {r : State Λ × List (Op Λ)} (sound : Sound s)
    (accounted : Accounted s) (distinct : Distinct s) (now : s.ops m = op :: rest)
    (hp : s.perform main m input op = some r) (mapped : s.channels_ l fd = some k) :
    r.1.channels_ l fd = some k ∨
      r.1.channels_ l fd = none ∧ ∃ rest, s.ops l = .remove k :: rest := by
  obtain ⟨loop, file, live⟩ := entered sound accounted mapped
  have own : ∀ {j}, j ∈ uses op → fd = (s.conns j).sockfd → j = k := fun used same =>
    distinct _ k (accounted.used now used).2 live (same.symm.trans file.symm)
  rcases perform_maps hp with same | ⟨j, used, set⟩ | ⟨j, rfl, set⟩
  · exact .inl (same ▸ mapped)
  · rw [set, State.updateChannel, State.setChannel_apply]
    split_ifs with here
    · exact .inl (congrArg some (own used here.2))
    · exact .inl mapped
  · rw [set, State.setChannel_apply]
    split_ifs with here
    · obtain rfl : j = k := own (List.mem_singleton_self j) here.2
      obtain rfl : l = m := here.1.trans (sound.head now).2
      exact .inr ⟨rfl, rest, now⟩
    · exact .inl mapped

theorem step_closes {m : Λ} {rest : List (Op Λ)} {r : State Λ × List (Op Λ)} (sound : Sound s)
    (accounted : Accounted s) (distinct : Distinct s) (now : s.ops m = op :: rest)
    (hp : s.perform main m input op = some r) (live : 0 < s.refs k) (dead : r.1.refs k = 0)
    (later : ∀ {j}, r.1.channels_ l (s.conns k).sockfd = some j → 0 < r.1.refs j) :
    r.1.channels_ l (s.conns k).sockfd = none := by
  obtain rfl := accounted.perform_ends now hp live dead
  cases hp
  cases mapped : s.channels_ l (s.conns k).sockfd with
  | none => exact mapped
  | some j =>
    obtain ⟨-, file, living⟩ := entered sound accounted mapped
    obtain rfl := distinct j k living live file
    exact absurd dead (Nat.ne_of_gt (later mapped))

/-- While the server is alive, whatever descriptors the kernel gives out again. -/
theorem descriptors_apart (h : (server main).Reachable Alive s) : Descriptors main s := by
  have accounted := server_accounted h
  have sound := server_sound h
  have distinct := server_distinct h
  refine ⟨fun l m fd j k first second => ?_, fun a t alive hn l fd k mapped => ?_,
    fun a t alive hn k live dead l => ?_⟩
  · obtain ⟨loopJ, fileJ, liveJ⟩ := entered sound accounted first
    obtain ⟨loopK, fileK, liveK⟩ := entered sound accounted second
    obtain rfl := distinct j k liveJ liveK (fileJ.trans fileK.symm)
    exact ⟨rfl, loopJ.symm.trans loopK⟩
  · cases a with
    | iterate m active =>
      obtain ⟨-, rfl⟩ := guard_met hn
      exact .inl mapped
    | step m input =>
      obtain ⟨op, rest, r, now, hp, rfl⟩ := next_step hn
      exact step_keeps sound accounted distinct now hp mapped
    | post m =>
      cases hn
      exact .inl mapped
    | destroy order threads => exact alive.elim
  · have sound' := sound.next accounted distinct alive hn
    have accounted' := accounted.next hn
    cases a with
    | iterate m active =>
      obtain ⟨-, rfl⟩ := guard_met hn
      exact absurd dead (Nat.ne_of_gt live)
    | step m input =>
      obtain ⟨op, rest, r, now, hp, rfl⟩ := next_step hn
      exact step_closes sound accounted distinct now hp live dead fun mapped =>
        (entered sound' accounted' mapped).2.2
    | post m =>
      cases hn
      exact absurd dead (Nat.ne_of_gt live)
    | destroy order threads => exact alive.elim

theorem descriptors_apart_reused : ∃ s : State Bool, (server true).Reachable Alive s ∧
    (s.refs 1, s.channels_ false 7) = (0, some 2) ∧ Descriptors true s := by
  have run : ((server true).execute Alive sample
      (accepting ++ hangingUp ++ [.iterate true []] ++ List.replicate 6 (.step true idle) ++
        [.iterate false []] ++ List.replicate 4 (.step false idle) ++ accepting)).map
      (fun s => (s.refs 1, s.channels_ false 7)) = some (0, some 2) := by decide +kernel
  obtain ⟨s, reached, ends⟩ := System.Reachable.of_replay sample_initial run
  exact ⟨s, reached, ends, descriptors_apart reached⟩

end TinyNetwork.ConnectionDescriptors
