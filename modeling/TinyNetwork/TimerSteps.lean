import TinyNetwork.TimerQueue

/-! `addTimerInLoop` and `handleRead` one step at a time. The steps are the calls the two
make (`insert`, `resetTimerfd`, `getExpired`, each callback, `restart`, each `delete`), with
the vector of expired entries and the place of the loop over it explicit. A callback may
add any number of timers before it returns. Beside the queue stands what happened to every
timer: addresses are used again after a `delete`, so an address has a list of lives, the
latest in front. -/
namespace TinyNetwork
open Transition TimerQueue

structure TimerRun where
  expiration : ℤ
  now : ℤ
  pass : ℕ

structure TimerLife where
  when : ℤ
  interval : Interval
  runs : List TimerRun
  deletes : ℕ

/-- Where `handleRead` is: between two callbacks or in one, with the entries whose callback
has been called and the rest; in `reset`, with the entries still to be processed. -/
inductive TimerPhase where
  | idle
  | calling (now : ℤ) (ran todo : List Entry)
  | callback (now : ℤ) (ran todo : List Entry)
  | resetting (todo : List Entry)
  | restarted (e : Entry) (todo : List Entry)
  | rearming (todo : List Entry)

/-- `rearm` is the expiration `addTimerInLoop` still has to arm the timerfd for, `passes` the
readings of the `handleRead` calls so far, and `fired` the expirations of the timers run
in the last of them. -/
structure TimerSteps where
  queue : TimerQueue
  phase : TimerPhase
  rearm : Option ℤ
  passes : List ℤ
  fired : List ℤ
  lives : ℕ → List TimerLife

def TimerPhase.accepts : TimerPhase → Bool
  | .idle => true
  | .callback _ _ _ => true
  | _ => false

namespace TimerSteps

inductive Action where
  | addTimer (t : NewTimer)
  | expire
  | handleRead
  | proceed

def resting (q : TimerQueue) : TimerSteps := ⟨q, .idle, none, [], [], fun _ => []⟩

def note (s : TimerSteps) (timer : ℕ) (f : TimerLife → TimerLife) : TimerSteps :=
  { s with lives := Function.update s.lives timer ((s.lives timer).modifyHead f) }

def addTimer (s : TimerSteps) (t : NewTimer) : TimerSteps :=
  let q := s.queue.store t.timer (some (Timer.construct t.when t.interval))
  let result := q.insert t.timer
  { s with
    queue := result.1
    rearm := if result.2 then some (result.1.deref t.timer).expiration_ else none
    lives := Function.update s.lives t.timer (⟨t.when, t.interval, [], 0⟩ :: s.lives t.timer) }

def run (s : TimerSteps) (now : ℤ) (ran : List Entry) (e : Entry) (todo : List Entry) :
    TimerSteps :=
  let expiration := (s.queue.deref e.timer).expiration_
  { s.note e.timer fun l =>
      { l with runs := l.runs ++ [⟨expiration, now, s.passes.length - 1⟩] } with
    queue := s.queue.record (.run e.timer expiration now)
    phase := .callback now (ran ++ [e]) todo
    fired := s.fired ++ [expiration] }

section Clock
variable (clock : ℕ → ℤ)

def enter (s : TimerSteps) : TimerSteps :=
  let (now, q) := s.queue.now clock
  let q := { q with timerfd_ := q.timerfd_.read }
  let (expired, q) := q.getExpired now
  { s with
    queue := q
    phase := .calling now [] expired
    passes := s.passes ++ [now]
    fired := [] }

def turn (s : TimerSteps) (e : Entry) (todo : List Entry) : TimerSteps :=
  if (s.queue.deref e.timer).repeat_ then
    let (_, q) := s.queue.now clock
    { s with
      queue := q.store e.timer (some (q.deref e.timer).restart)
      phase := .restarted e todo }
  else
    { s.note e.timer fun l => { l with deletes := l.deletes + 1 } with
      queue := (s.queue.store e.timer none).record (.delete e.timer)
      phase := .rearming todo }

def proceed (s : TimerSteps) : Option TimerSteps :=
  match s.phase with
  | .idle => none
  | .calling now ran (e :: todo) => some (s.run now ran e todo)
  | .callback now ran todo => some { s with phase := .calling now ran todo }
  | .calling _ ran [] => some { s with phase := .resetting ran }
  | .resetting (e :: todo) => some (s.turn clock e todo)
  | .restarted e todo => some { s with
      queue := (s.queue.insert e.timer).1
      phase := .rearming todo }
  | .rearming todo => some { s with
      queue := match s.queue.timers_.first? with
        | none => s.queue
        | some first => s.queue.resetTimerfd clock (s.queue.deref first.timer).expiration_
      phase := .resetting todo }
  | .resetting [] => some { s with phase := .idle }

def next (s : TimerSteps) : Action → Option TimerSteps
  | .expire =>
    if s.queue.timerfd_ = .armed then
      some { s with queue := { s.queue with timerfd_ := .expired } }
    else none
  | .proceed =>
    match s.rearm with
    | none => s.proceed clock
    | some expiration => some { s with
        queue := s.queue.resetTimerfd clock expiration
        rearm := none }
  | .addTimer t =>
    if s.rearm = none ∧ s.phase.accepts ∧ t.timer ≠ 0 ∧ (s.queue.heap t.timer).isNone then
      some (s.addTimer t)
    else none
  | .handleRead =>
    match s.rearm, s.phase with
    | none, .idle => some (s.enter clock)
    | _, _ => none

def timerSteps : System TimerSteps Action where
  init s := s = resting construct
  next := next clock

end Clock

section Refinement
variable {clock : ℕ → ℤ} {s : TimerSteps} {q : TimerQueue}

def Leads (clock : ℕ → ℤ) (s : TimerSteps) (q : TimerQueue) (phase : TimerPhase) : Prop :=
  ∃ t, (timerSteps clock).Path Any s t ∧ t.queue = q ∧ t.phase = phase ∧ t.rearm = none

theorem Leads.stay (settled : s.rearm = none) : Leads clock s s.queue s.phase :=
  ⟨s, .refl s, rfl, rfl, settled⟩

theorem Leads.step {t : TimerSteps} {phase : TimerPhase} (a : Action)
    (first : next clock s a = some t) (h : Leads clock t q phase) : Leads clock s q phase := by
  obtain ⟨u, rest, ends⟩ := h
  exact ⟨u, (System.Path.single (a := a) trivial first).trans rest, ends⟩

theorem Leads.proceed {t : TimerSteps} {phase : TimerPhase} (settled : s.rearm = none)
    (first : s.proceed clock = some t) (h : Leads clock t q phase) : Leads clock s q phase := by
  refine h.step .proceed ?_
  rw [next, settled]
  exact first

theorem leads_addTimer {t : NewTimer} (settled : s.rearm = none) (accepts : s.phase.accepts)
    (h : s.queue.addTimer clock t = some q) : Leads clock s q s.phase := by
  obtain ⟨⟨nonnull, free⟩, rfl⟩ := guard_met h
  have added : next clock s (.addTimer t) = some (s.addTimer t) :=
    if_pos ⟨settled, accepts, nonnull, free⟩
  refine .step _ added ?_
  unfold TimerQueue.addTimerInLoop
  dsimp only
  split_ifs with changed
  · have armed : (s.addTimer t).rearm = some
        ((s.addTimer t).queue.deref t.timer).expiration_ := if_pos changed
    have last : next clock (s.addTimer t) .proceed = some { s.addTimer t with
        queue := (s.addTimer t).queue.resetTimerfd clock
          ((s.addTimer t).queue.deref t.timer).expiration_
        rearm := none } := by rw [next, armed]
    exact .step .proceed last (.stay rfl)
  · exact .stay (if_neg changed)

theorem leads_addTimers {ts : List NewTimer} (settled : s.rearm = none)
    (accepts : s.phase.accepts) (h : s.queue.addTimers clock ts = some q) :
    Leads clock s q s.phase := by
  induction ts generalizing s with
  | nil =>
    obtain rfl := Option.some.inj h
    exact .stay settled
  | cons t ts ih =>
    obtain ⟨r, first, rest⟩ := Option.bind_eq_some_iff.mp h
    obtain ⟨u, path, rfl, same, settled'⟩ := leads_addTimer settled accepts first
    obtain ⟨v, path', ends, same', settled''⟩ := ih settled' (same ▸ accepts) rest
    exact ⟨v, path.trans path', ends, same'.trans same, settled''⟩

theorem leads_runExpired {now : ℤ} {ran todo : List Entry} {callbacks : List (List NewTimer)}
    (settled : s.rearm = none) (phase : s.phase = .calling now ran todo)
    (h : s.queue.runExpired clock now todo callbacks = some q) :
    Leads clock s q (.calling now (ran ++ todo) []) := by
  induction todo generalizing s ran callbacks with
  | nil =>
    obtain rfl := Option.some.inj h
    rw [List.append_nil, ← phase]
    exact .stay settled
  | cons e todo ih =>
    obtain ⟨r, added, rest⟩ := Option.bind_eq_some_iff.mp h
    have called : s.proceed clock = some (s.run now ran e todo) := by rw [proceed, phase]
    refine .proceed settled called ?_
    obtain ⟨u, path, rfl, same, settled'⟩ :=
      leads_addTimers (s := s.run now ran e todo) settled rfl added
    have returned : u.proceed clock = some { u with phase := .calling now (ran ++ [e]) todo } := by
      rw [proceed, same]
      rfl
    have later : Leads clock { u with phase := .calling now (ran ++ [e]) todo } q
        (.calling now (ran ++ [e] ++ todo) []) := ih settled' rfl rest
    rw [List.append_assoc] at later
    obtain ⟨v, path', ends⟩ := Leads.proceed settled' returned later
    exact ⟨v, path.trans path', ends⟩

theorem leads_resetOne {e : Entry} {todo : List Entry} (settled : s.rearm = none)
    (phase : s.phase = .resetting (e :: todo)) :
    Leads clock s (s.queue.resetOne clock e) (.resetting todo) := by
  have turned : s.proceed clock = some (s.turn clock e todo) := by rw [proceed, phase]
  refine .proceed settled turned ?_
  unfold TimerQueue.resetOne turn
  dsimp only
  split_ifs with repeats
  · exact .proceed settled rfl (.proceed settled rfl (.stay settled))
  · exact .proceed settled rfl (.stay settled)

theorem leads_reset {todo : List Entry} (settled : s.rearm = none)
    (phase : s.phase = .resetting todo) : Leads clock s (s.queue.reset clock todo) .idle := by
  induction todo generalizing s with
  | nil =>
    have finished : s.proceed clock = some { s with phase := .idle } := by rw [proceed, phase]
    exact .proceed settled finished (.stay settled)
  | cons e todo ih =>
    obtain ⟨t, path, turned, rest, settled'⟩ := leads_resetOne settled phase
    obtain ⟨u, path', ends⟩ := ih settled' rest
    rw [turned] at ends
    exact ⟨u, path.trans path', ends⟩

theorem leads_finish {now : ℤ} {ran : List Entry} (settled : s.rearm = none)
    (phase : s.phase = .calling now ran []) : Leads clock s (s.queue.reset clock ran) .idle := by
  have resets : s.proceed clock = some { s with phase := .resetting ran } := by
    rw [proceed, phase]
  exact .proceed settled resets (leads_reset (s := { s with phase := .resetting ran }) settled rfl)

theorem leads_handleRead {callbacks : List (List NewTimer)} (settled : s.rearm = none)
    (phase : s.phase = .idle) (h : s.queue.handleRead clock callbacks = some q) :
    Leads clock s q .idle := by
  obtain ⟨ran, called, rfl⟩ := Option.map_eq_some_iff.mp h
  have entered : next clock s .handleRead = some (s.enter clock) := by
    rw [next, settled, phase]
  refine .step .handleRead entered ?_
  obtain ⟨t, path, rfl, same, settled'⟩ :=
    leads_runExpired (s := s.enter clock) settled rfl called
  obtain ⟨u, path', ends⟩ := leads_finish settled' same
  exact ⟨u, path.trans path', ends⟩

/-- Every queue the operations reach is reached by the steps, between two operations. -/
theorem timerQueue_steps (h : (timerQueue clock).Reachable Any q) :
    ∃ s, (timerSteps clock).Reachable Any s ∧ s.queue = q ∧ s.phase = .idle ∧
      s.rearm = none := by
  refine h.invariant (P := fun q => ∃ s, (timerSteps clock).Reachable Any s ∧ s.queue = q ∧
    s.phase = .idle ∧ s.rearm = none) ?_ ?_
  · rintro q rfl
    exact ⟨resting construct, .initial rfl, rfl, rfl, rfl⟩
  · rintro q a r ⟨s, reached, rfl, phase, settled⟩ - hn
    have leads : Leads clock s r .idle := by
      cases a with
      | addTimer t =>
        rw [← phase]
        exact leads_addTimer settled (by rw [phase]; rfl) hn
      | expire =>
        obtain ⟨armed, rfl⟩ := guard_met hn
        exact .step .expire (if_pos armed) ⟨_, .refl _, rfl, phase, settled⟩
      | handleRead callbacks =>
        exact leads_handleRead settled phase (Option.ite_none_right_eq_some.mp hn).2
    obtain ⟨t, path, ends⟩ := leads
    exact ⟨t, reached.path path, ends⟩

end Refinement

end TimerSteps

end TinyNetwork
