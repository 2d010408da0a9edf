import TinyNetwork.ConnectionOutput

/-! The notifications a connection queues for its user. The write-complete notification
is queued where the last waiting byte goes to the kernel, by `sendInLoop` or by
`handleWrite`; the high-water notification where the waiting bytes reach
`highWaterMark_` from below, before they are appended. -/
namespace TinyNetwork.ConnectionNotifications
open Transition MachineWord TcpConnection ConnectionOutput

structure Notifying (c : TcpConnection) : Prop where
  complete : c.writeCompleteCallback_ = true
  highWater : c.highWaterMarkCallback_ = true
  mark : 0 < c.highWaterMark_

def raised (mark before after_ : ℕ) : List Functor :=
  if before < mark ∧ mark ≤ after_ then [.highWaterMarkCallback after_] else []

def isHighWater : Functor → Bool
  | .highWaterMarkCallback _ => true
  | _ => false

theorem raised_highWater (mark before after_ : ℕ) :
    (raised mark before after_).filter isHighWater = raised mark before after_ := by
  unfold raised
  split_ifs <;> rfl

theorem raised_of_le {mark before after_ : ℕ} (h : after_ ≤ before) :
    raised mark before after_ = [] :=
  if_neg fun crossed => by omega

section Settings

def settings (c : TcpConnection) : Bool × Bool × ℕ :=
  (c.writeCompleteCallback_, c.highWaterMarkCallback_, c.highWaterMark_)

theorem Notifying.of_settings {c d : TcpConnection} (h : Notifying c)
    (same : settings d = settings c) : Notifying d := by
  simp only [settings, Prod.mk.injEq] at same
  exact ⟨same.1.trans h.complete, same.2.1.trans h.highWater, same.2.2 ▸ h.mark⟩

@[simp] theorem noteWriteComplete_settings (c : TcpConnection) :
    settings c.noteWriteComplete = settings c := by
  unfold noteWriteComplete
  split_ifs <;> rfl

@[simp] theorem noteHighWaterMark_settings (c : TcpConnection) (n : ℕ) :
    settings (c.noteHighWaterMark n) = settings c := by
  unfold noteHighWaterMark
  dsimp only
  split_ifs <;> rfl

@[simp] theorem write_settings (c : TcpConnection) (data : List Byte) (answer : WriteResult) :
    settings (c.write data answer) = settings c := by
  rw [write_eq]
  rfl

@[simp] theorem shutdownInLoop_settings (c : TcpConnection) :
    settings c.shutdownInLoop = settings c := by
  unfold shutdownInLoop
  split_ifs <;> rfl

theorem sendRest_settings {c c' : TcpConnection} {data : List Byte} {nwrote remaining : ℕ}
    (h : c.sendRest data nwrote remaining = some c') : settings c' = settings c := by
  unfold sendRest at h
  split_ifs at h
  · obtain ⟨b, -, rfl⟩ := Option.map_eq_some_iff.mp h
    refine Eq.trans ?_ (noteHighWaterMark_settings c remaining)
    dsimp only
    split_ifs <;> rfl
  · exact Option.some.inj h ▸ rfl

theorem sendInLoop_settings {c c' : TcpConnection} {data : List Byte} {answer : WriteResult}
    (h : c.sendInLoop data answer = some c') : settings c' = settings c := by
  unfold sendInLoop at h
  split_ifs at h
  · exact Option.some.inj h ▸ rfl
  · cases answer with
    | wrote n =>
      refine (sendRest_settings h).trans ?_
      split_ifs <;> simp
    | failed errno =>
      dsimp only at h
      split_ifs at h
      · exact Option.some.inj h ▸ write_settings c data _
      · exact (sendRest_settings h).trans (write_settings c data _)
  · exact sendRest_settings h

theorem moved_settings (c : TcpConnection) (n : ℕ) : settings (moved c n) = settings c :=
  write_settings c c.outputBuffer_.readable (.wrote n)

theorem drained_settings (c : TcpConnection) (n : ℕ) : settings (drained c n) = settings c :=
  (noteWriteComplete_settings _).trans (moved_settings c n)

theorem handleWrite_settings {c : TcpConnection} (h : Synced c) (answer : WriteResult) :
    settings (c.handleWrite answer) = settings c := by
  by_cases hd : Drains c answer
  · obtain ⟨writing, n, rfl, pos, all⟩ := hd
    rw [handleWrite_drains h ⟨writing, n, rfl, pos, all⟩]
    split_ifs <;> exact drained_settings c n
  · rcases handleWrite_partial h hd with same | ⟨-, written⟩ | ⟨n, -, -, partly⟩
    · rw [same]
    · rw [written]
      exact write_settings c _ answer
    · rw [partly]
      exact moved_settings c n

theorem shutdown_settings (c : TcpConnection) (inLoopThread : Bool) :
    settings (c.shutdown inLoopThread) = settings c := by
  unfold TcpConnection.shutdown
  split_ifs
  · exact shutdownInLoop_settings _
  · rfl
  · rfl

theorem next_settings {s t : State} {a : Action} (h : Inv s) (hn : output.next s a = some t) :
    settings t.conn = settings s.conn := by
  cases a with
  | sendInLoop data answer =>
    obtain ⟨c, hc, rfl⟩ := Option.map_eq_some_iff.mp hn
    exact sendInLoop_settings hc
  | handleWrite answer =>
    cases hn
    exact handleWrite_settings h.synced answer
  | shutdown inLoopThread =>
    cases hn
    exact shutdown_settings s.conn inLoopThread

end Settings

section Step
variable {c c' : TcpConnection} {data : List Byte} {answer : WriteResult}

theorem noteWriteComplete_queued (h : Notifying c) :
    c.noteWriteComplete.pendingFunctors_ = c.pendingFunctors_ ++ [.writeCompleteCallback] := by
  rw [noteWriteComplete, if_pos h.complete]
  rfl

theorem noteHighWaterMark_queued (h : Notifying c) {n : ℕ}
    (small : c.outputBuffer_.readableBytes + n < 2 ^ 64) :
    (c.noteHighWaterMark n).pendingFunctors_ = c.pendingFunctors_ ++
      raised c.highWaterMark_ c.outputBuffer_.readableBytes
        (c.outputBuffer_.readableBytes + n) := by
  simp only [noteHighWaterMark, sizeAdd_of_lt small, h.highWater, and_true]
  by_cases crossed : c.outputBuffer_.readableBytes < c.highWaterMark_ ∧
      c.highWaterMark_ ≤ c.outputBuffer_.readableBytes + n
  · rw [if_pos crossed.symm, raised, if_pos crossed]
    rfl
  · rw [if_neg (mt And.symm crossed), raised, if_neg crossed, List.append_nil]

theorem sendRest_queued {nwrote : ℕ} (notifying : Notifying c) (h : Synced c)
    (short : data.length < 2 ^ 31) (hc : c.sendRest data nwrote (data.length - nwrote) = some c') :
    c'.pendingFunctors_ = c.pendingFunctors_ ++
      raised c.highWaterMark_ c.outputBuffer_.readableBytes c'.outputBuffer_.readableBytes := by
  obtain ⟨synced, -, content⟩ := sendRest_stream h (fun _ => by omega) hc
  have after_ : c'.outputBuffer_.readableBytes =
      c.outputBuffer_.readableBytes + (data.length - nwrote) := by
    rw [← Buffer.readable_length synced.wellFormed, content, List.length_append, List.length_drop,
      Buffer.readable_length h.wellFormed]
  have small : c.outputBuffer_.readableBytes + (data.length - nwrote) < 2 ^ 64 := by
    have bound := h.wellFormed.size_le
    have inside := h.wellFormed.writer_le
    rw [Buffer.readableBytes_eq h.wellFormed]
    unfold Buffer.maxSize at bound
    omega
  rw [after_, ← noteHighWaterMark_queued notifying small]
  unfold sendRest at hc
  split_ifs at hc with left
  · obtain ⟨b, -, rfl⟩ := Option.map_eq_some_iff.mp hc
    dsimp only
    split_ifs <;> rfl
  · obtain rfl := Option.some.inj hc
    rw [noteHighWaterMark_queued notifying small, raised_of_le (by omega), List.append_nil]

/-- A step that writes and leaves nothing waiting queues the write-complete notification; any
other step queues the high-water notification where the mark is reached. -/
def Queues (c c' : TcpConnection) (answer : WriteResult) : Prop :=
  ((∃ n, answer = .wrote n) ∧ (∃ bytes rest, c'.trace = c.trace ++ .write bytes :: rest) ∧
      c'.outputBuffer_.readable = [] ∧
      c'.pendingFunctors_ = c.pendingFunctors_ ++ [.writeCompleteCallback]) ∨
    ((c'.trace = c.trace ∨ c'.outputBuffer_.readable ≠ [] ∨ ∀ n, answer ≠ .wrote n) ∧
      c'.pendingFunctors_ = c.pendingFunctors_ ++
        raised c.highWaterMark_ c.outputBuffer_.readableBytes c'.outputBuffer_.readableBytes)

theorem sendInLoop_queues (notifying : Notifying c) (h : Synced c)
    (live : c.state_ ≠ .kDisconnected) (short : data.length < 2 ^ 31)
    (answers : Answers data.length answer) (hc : c.sendInLoop data answer = some c') :
    Queues c c' answer := by
  have whole := hc
  unfold sendInLoop at hc
  rw [if_neg live] at hc
  split_ifs at hc with direct
  · cases answer with
    | wrote n =>
      have taken_ : n ≤ data.length := answers
      dsimp only at hc
      rw [sizeSub_of_le taken_ (by omega)] at hc
      split_ifs at hc with all
      · -- the direct write took everything
        left
        rw [all, sendRest, if_neg (Nat.lt_irrefl 0)] at hc
        obtain rfl := Option.some.inj hc
        have notes := Notifying.of_settings notifying (write_settings c data (.wrote n))
        obtain ⟨buffer, -, trace, -⟩ := noteWriteComplete_fields (c.write data (.wrote n))
        refine ⟨⟨n, rfl⟩, ⟨data.take n, [], trace⟩, ?_, noteWriteComplete_queued notes⟩
        rw [buffer]
        exact (Buffer.readableBytes_eq_zero h.wellFormed).mp direct.2
      · right
        have notes := Notifying.of_settings notifying (write_settings c data (.wrote n))
        have synced : Synced (c.write data (.wrote n)) := h.of_eq rfl rfl
        obtain ⟨-, -, content⟩ := sendRest_stream synced (fun _ => by omega) hc
        have queued := sendRest_queued notes synced short hc
        refine ⟨.inr (.inl ?_), queued⟩
        rw [content]
        intro empty
        have size := congrArg List.length empty
        rw [List.length_append, List.length_drop, List.length_nil] at size
        omega
    | failed errno =>
      right
      dsimp only at hc
      have usable : ¬(errno ≠ EWOULDBLOCK ∧ (errno = EPIPE ∨ errno = ECONNRESET)) := by
        rintro ⟨-, broken⟩
        exact broken.elim answers.1 answers.2
      rw [if_neg usable] at hc
      have notes := Notifying.of_settings notifying (write_settings c data (.failed errno))
      have synced : Synced (c.write data (.failed errno)) := h.of_eq rfl rfl
      have queued := sendRest_queued notes synced short hc
      exact ⟨.inr (.inr fun n => by simp), queued⟩
  · right
    obtain ⟨-, trace, -⟩ := sendRest_stream h (fun _ => by omega) hc
    exact ⟨.inl trace, sendRest_queued notifying h short hc⟩

theorem handleWrite_queues (notifying : Notifying c) (h : Synced c) (answer : WriteResult) :
    Queues c (c.handleWrite answer) answer := by
  by_cases hd : Drains c answer
  · left
    obtain ⟨writing, n, rfl, pos, all⟩ := hd
    obtain ⟨buffer, -, trace, -⟩ := drained_fields c n
    have notes := Notifying.of_settings notifying (moved_settings c n)
    have queued : (drained c n).pendingFunctors_ = c.pendingFunctors_ ++ [.writeCompleteCallback] :=
      noteWriteComplete_queued ⟨notes.complete, notes.highWater, notes.mark⟩
    have empty : (c.outputBuffer_.retrieve n).readable = [] := by
      rw [Buffer.retrieve_readable h.wellFormed]
      exact List.drop_eq_nil_of_le all
    rw [handleWrite_drains h ⟨writing, n, rfl, pos, all⟩]
    split_ifs
    · refine ⟨⟨n, rfl⟩, ⟨c.outputBuffer_.readable.take n, [.shutdownWrite], ?_⟩, ?_, queued⟩
      · rw [record, trace, List.append_assoc]
        rfl
      · rw [record, buffer]
        exact empty
    · exact ⟨⟨n, rfl⟩, ⟨c.outputBuffer_.readable.take n, [], trace⟩, buffer ▸ empty, queued⟩
  · right
    have shrinks : (c.handleWrite answer).outputBuffer_.readableBytes ≤
        c.outputBuffer_.readableBytes := by
      obtain ⟨synced, n, -, left⟩ := handleWrite_stream h answer
      rw [← Buffer.readable_length synced.wellFormed, left, List.length_drop,
        Buffer.readable_length h.wellFormed]
      exact Nat.sub_le _ _
    rw [raised_of_le shrinks, List.append_nil]
    by_cases writing : c.channel_.isWriting = true
    · have waiting := h.interest.mp writing
      rcases handleWrite_partial h hd with same | ⟨-, written⟩ | ⟨n, -, less, partly⟩
      · rw [same]
        exact ⟨.inl rfl, rfl⟩
      · rw [written, write_eq]
        exact ⟨.inr (.inl waiting), rfl⟩
      · rw [partly]
        refine ⟨.inr (.inl ?_), rfl⟩
        rw [moved, Buffer.retrieve_readable h.wellFormed, Ne, List.drop_eq_nil_iff]
        omega
    · rw [handleWrite, if_neg writing]
      exact ⟨.inl rfl, rfl⟩

end Step

section Runs

def answer? : Action → Option WriteResult
  | .sendInLoop _ answer => some answer
  | .handleWrite answer => some answer
  | .shutdown _ => none

def queued (s t : State) : List Functor :=
  t.conn.pendingFunctors_.drop s.conn.pendingFunctors_.length

def highWater (s t : State) : List Functor := (queued s t).filter isHighWater

def pending (s : State) : ℕ := s.conn.outputBuffer_.readableBytes

/-- The step makes a `::write` that does not fail, and ends with every byte accepted so far
handed to the kernel. -/
def Completes (s : State) (a : Action) (t : State) : Prop :=
  (∃ n, answer? a = some (.wrote n)) ∧
    (∃ bytes rest, t.conn.trace = s.conn.trace ++ .write bytes :: rest) ∧
    accepted t.conn.trace = t.sent

structure Exact (s : State) (a : Action) (t : State) : Prop where
  kept : s.conn.pendingFunctors_ ++ queued s t = t.conn.pendingFunctors_
  complete : Completes s a t → (queued s t).count .writeCompleteCallback = 1
  incomplete : ¬Completes s a t → .writeCompleteCallback ∉ queued s t
  highWater : highWater s t = raised s.conn.highWaterMark_ (pending s) (pending t)

variable {s t : State} {a : Action}

theorem queued_eq {functors : List Functor}
    (h : t.conn.pendingFunctors_ = s.conn.pendingFunctors_ ++ functors) :
    queued s t = functors := by
  rw [queued, h, List.drop_left]

theorem exact_of_queues {answer : WriteResult} (offers : answer? a = some answer)
    (conserves : accepted t.conn.trace ++ t.conn.outputBuffer_.readable = t.sent)
    (wellFormed : t.conn.outputBuffer_.WellFormed)
    (h : Queues s.conn t.conn answer) : Exact s a t := by
  rcases h with ⟨wrote, writes, empty, functors⟩ | ⟨not_, functors⟩
  · have new := queued_eq functors
    have completes : Completes s a t := by
      rw [empty, List.append_nil] at conserves
      exact ⟨wrote.imp fun n same => by rw [offers, same], writes, conserves⟩
    refine ⟨by rw [new, functors], fun _ => by rw [new]; rfl,
      fun incomplete => absurd completes incomplete, ?_⟩
    have below : pending t ≤ pending s := by
      rw [pending, (Buffer.readableBytes_eq_zero wellFormed).mpr empty]
      exact Nat.zero_le _
    rw [highWater, new, raised_of_le below]
    rfl
  · have new := queued_eq functors
    have incomplete : ¬Completes s a t := by
      rintro ⟨⟨n, wrote⟩, ⟨bytes, rest, trace⟩, all⟩
      rcases not_ with same | waiting | failed
      · rw [same] at trace
        exact absurd (List.self_eq_append_right.mp trace) (List.cons_ne_nil _ _)
      · rw [← all] at conserves
        exact waiting (List.append_right_eq_self.mp conserves)
      · exact failed n (Option.some.inj (offers.symm.trans wrote))
    refine ⟨by rw [new, functors], fun completes => absurd completes incomplete, fun _ => ?_, ?_⟩
    · rw [new, raised]
      split_ifs <;> simp
    · rw [highWater, new]
      exact raised_highWater _ _ _

theorem shutdown_exact (inLoopThread : Bool)
    (hn : output.next s (.shutdown inLoopThread) = some t) :
    Exact s (.shutdown inLoopThread) t := by
  have incomplete : ¬Completes s (.shutdown inLoopThread) t := by
    rintro ⟨⟨n, no⟩, -⟩
    cases no
  obtain ⟨functors, new, others, same⟩ : ∃ functors,
      t.conn.pendingFunctors_ = s.conn.pendingFunctors_ ++ functors ∧
      (functors = [] ∨ functors = [.shutdownInLoop]) ∧
      t.conn.outputBuffer_ = s.conn.outputBuffer_ := by
    cases hn
    simp only [TcpConnection.shutdown, shutdownInLoop]
    split_ifs
    · exact ⟨[], (List.append_nil _).symm, .inl rfl, rfl⟩
    · exact ⟨[], (List.append_nil _).symm, .inl rfl, rfl⟩
    · exact ⟨[.shutdownInLoop], rfl, .inr rfl, rfl⟩
    · exact ⟨[], (List.append_nil _).symm, .inl rfl, rfl⟩
  have tail := queued_eq new
  refine ⟨by rw [tail, new], fun completes => absurd completes incomplete, fun _ => ?_, ?_⟩
  · rw [tail]
    rcases others with rfl | rfl <;> simp
  · rw [highWater, tail, raised_of_le (by rw [pending, pending, same])]
    rcases others with rfl | rfl <;> rfl

theorem step_exact (h : output.Reachable Working s) (notifying : Notifying s.conn)
    (ha : Working s a) (hn : output.next s a = some t) : Exact s a t := by
  have inv := output_inv h
  have reached : output.Reachable Working t := h.path (System.Path.single ha hn)
  have conserves := FifoTransfer.conserved (output_refines reached)
  have wellFormed := (output_inv reached).synced.wellFormed
  cases a with
  | sendInLoop data answer =>
    obtain ⟨c, hc, rfl⟩ := Option.map_eq_some_iff.mp hn
    exact exact_of_queues rfl conserves wellFormed
      (sendInLoop_queues notifying inv.synced inv.live ha.1 ha.2 hc)
  | handleWrite answer =>
    cases hn
    exact exact_of_queues rfl conserves wellFormed
      (handleWrite_queues notifying inv.synced answer)
  | shutdown inLoopThread => exact shutdown_exact inLoopThread hn

theorem path_settings {u : State} (h : output.Reachable Working s)
    (path : output.Path Working s u) : settings u.conn = settings s.conn := by
  refine (path.stable (P := fun u => output.Reachable Working u ∧ settings u.conn = settings s.conn)
    (fun u a v hu ha hn => ⟨hu.1.path (System.Path.single ha hn), ?_⟩) ⟨h, rfl⟩).2
  exact (next_settings (output_inv hu.1) hn).trans hu.2

/-- A high-water notification means that the mark was reached from below. -/
theorem highWater_crossed (exact_ : Exact s a t) (some_ : highWater s t ≠ []) :
    pending s < s.conn.highWaterMark_ ∧ s.conn.highWaterMark_ ≤ pending t := by
  rw [exact_.highWater, raised] at some_
  by_contra not_
  exact some_ (if_neg not_)

/-- Every step of a run queues exactly the notifications it is to queue, and between two
high-water notifications the waiting bytes fall below the mark. -/
theorem notifications_exact (h : output.Reachable Working s) (notifying : Notifying s.conn)
    (ha : Working s a) (hn : output.next s a = some t) :
    Exact s a t ∧
      ∀ u b v, output.Path Working t u → Working u b → output.next u b = some v →
        highWater s t ≠ [] → highWater u v ≠ [] →
        s.conn.highWaterMark_ ≤ pending t ∧ pending u < s.conn.highWaterMark_ := by
  have exact_ := step_exact h notifying ha hn
  refine ⟨exact_, fun u b v path hb hv first second => ⟨(highWater_crossed exact_ first).2, ?_⟩⟩
  have run : output.Path Working s u := (System.Path.single ha hn).trans path
  have same := path_settings h run
  have later := step_exact (h.path run) (notifying.of_settings same) hb hv
  have mark : u.conn.highWaterMark_ = s.conn.highWaterMark_ := by
    simp only [settings, Prod.mk.injEq] at same
    exact same.2.2
  rw [← mark]
  exact (highWater_crossed later second).1

theorem notifications_exact_high : output.Reachable Working sample ∧ Notifying sample.conn ∧
    ∃ t, output.next sample (.sendInLoop (List.replicate 70 7) (.wrote 3)) = some t ∧
      highWater sample t = [.highWaterMarkCallback 67] ∧
      Exact sample (.sendInLoop (List.replicate 70 7) (.wrote 3)) t := by
  have run : (output.next sample (.sendInLoop (List.replicate 70 7) (.wrote 3))).map
      (fun t => highWater sample t) = some [.highWaterMarkCallback 67] := by decide +kernel
  obtain ⟨t, hn, high⟩ := Option.map_eq_some_iff.mp run
  have reached : output.Reachable Working sample := System.Reachable.initial sample_init
  have notifying : Notifying sample.conn := ⟨rfl, rfl, by decide⟩
  exact ⟨reached, notifying, t, hn, high,
    (notifications_exact reached notifying (by decide) hn).1⟩

end Runs

end TinyNetwork.ConnectionNotifications
