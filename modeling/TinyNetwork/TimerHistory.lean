import TinyNetwork.TimerExpiry
import TinyNetwork.TimerSteps
import Mathlib.Data.List.Nodup

/-! What happens to each timer over any run of `addTimerInLoop` and `handleRead`. A live
timer is owned by one entry: in the set, or in the vector while `reset` has not come to it.
Its expiration is the one it was added with plus one period for every time it was
restarted, so a late run moves nothing; a run and the restart after it are always in one
`handleRead`, between taking the entry out of the set and putting it back. -/
namespace TinyNetwork

namespace TimerPhase

def held : TimerPhase → List Entry
  | .idle => []
  | .calling _ ran todo => ran ++ todo
  | .callback _ ran todo => ran ++ todo
  | .resetting todo => todo
  | .restarted e todo => e :: todo
  | .rearming todo => todo

def spent : TimerPhase → List Entry
  | .idle => []
  | .calling _ ran _ => ran
  | .callback _ ran _ => ran
  | .resetting todo => todo
  | .restarted _ todo => todo
  | .rearming todo => todo

def waiting : TimerPhase → List Entry
  | .calling _ _ todo => todo
  | .callback _ _ todo => todo
  | _ => []

def reading : TimerPhase → Option ℤ
  | .calling now _ _ => some now
  | .callback now _ _ => some now
  | _ => none

end TimerPhase

namespace TimerSteps
open Transition TimerQueue

def owners (s : TimerSteps) : List ℕ :=
  (s.queue.timers_.elements ++ s.phase.held).map Entry.timer

/-- The entries whose key is the expiration of their timer: all but one that was restarted and
is not inserted yet. -/
def keyed (s : TimerSteps) : List Entry :=
  s.queue.timers_.elements ++ (s.phase.spent ++ s.phase.waiting)

structure Owned (s : TimerSteps) : Prop where
  distinct : s.owners.Nodup
  live : ∀ p, p ∈ s.owners ↔ (s.queue.heap p).isSome
  keys : ∀ e ∈ s.keyed, (s.queue.deref e.timer).expiration_ = e.timestamp

structure Regular (passes : List ℤ) (l : TimerLife) : Prop where
  onTime : ∀ (k : ℕ) r, l.runs[k]? = some r →
    r.expiration = l.when + k * l.interval.micros ∧ r.expiration ≤ r.now
  within : ∀ r ∈ l.runs, passes[r.pass]? = some r.now
  apart : l.runs.Pairwise fun r later => r.pass < later.pass

structure Finished (passes : List ℤ) (l : TimerLife) : Prop where
  regular : Regular passes l
  deleted : l.deletes = 1
  oneShot : l.interval.positive = false
  once : l.runs.length = 1

/-- A timer on the heap and its life, with whether its callback has been called in this
`handleRead` (and it is not restarted yet), or is still to be called. -/
structure Current (passes : List ℤ) (spent waiting : Prop) (t : Timer) (l : TimerLife) :
    Prop where
  regular : Regular passes l
  kept : l.deletes = 0
  interval : t.interval_ = l.interval
  repeats : t.repeat_ = l.interval.positive
  rested : ¬spent → t.expiration_ = l.when + l.runs.length * l.interval.micros ∧
    (l.interval.positive = false → l.runs = [])
  ran : spent → t.expiration_ + l.interval.micros = l.when + l.runs.length * l.interval.micros ∧
    (l.interval.positive = false → l.runs.length = 1)
  earlier : waiting → ∀ r ∈ l.runs, r.pass + 1 < passes.length

def Lived (passes : List ℤ) (spent waiting : Prop) : Option Timer → List TimerLife → Prop
  | none, lives => ∀ l ∈ lives, Finished passes l
  | some t, lives => ∃ l older, lives = l :: older ∧ Current passes spent waiting t l ∧
      ∀ l ∈ older, Finished passes l

structure Historic (s : TimerSteps) : Prop where
  owned : Owned s
  lived : ∀ p, Lived s.passes (p ∈ s.phase.spent.map Entry.timer)
    (p ∈ s.phase.waiting.map Entry.timer) (s.queue.heap p) (s.lives p)
  due : ∀ now ∈ s.phase.reading, s.passes[s.passes.length - 1]? = some now ∧
    ∀ e ∈ s.phase.waiting, e.timestamp < now
  ordered : (s.fired ++ s.phase.waiting.map Entry.timestamp).Pairwise (· ≤ ·)

variable {s : TimerSteps} {clock : ℕ → ℤ} {p : ℕ} {e : Entry} {todo ran : List Entry} {now : ℤ}

section Heap
variable {q : TimerQueue} {t : Option Timer}

theorem deref_some {t : Timer} (h : q.heap p = some t) : q.deref p = t := by
  rw [deref, h, Option.getD_some]

theorem heap_store_self : (q.store p t).heap p = t := by
  simp [store]

theorem heap_store_other {r : ℕ} (other : r ≠ p) : (q.store p t).heap r = q.heap r := by
  simp [store, Function.update_of_ne other]

theorem deref_store_other {r : ℕ} (other : r ≠ p) : (q.store p t).deref r = q.deref r := by
  rw [deref, deref, heap_store_other other]

end Heap

section Lives
variable {passes : List ℤ} {spent spent' waiting waiting' : Prop} {l : TimerLife}
  {heap : Option Timer} {lives : List TimerLife}

theorem Regular.later (h : Regular passes l) (now : ℤ) : Regular (passes ++ [now]) l := by
  refine ⟨h.onTime, fun r hr => ?_, h.apart⟩
  have before := h.within r hr
  rw [List.getElem?_append_left (List.getElem?_eq_some_iff.mp before).1]
  exact before

theorem Finished.later (h : Finished passes l) (now : ℤ) : Finished (passes ++ [now]) l :=
  { h with regular := h.regular.later now }

theorem Lived.later (h : Lived passes spent waiting heap lives) (now : ℤ) :
    Lived (passes ++ [now]) spent waiting' heap lives := by
  cases heap with
  | none => exact fun l hl => (h l hl).later now
  | some t =>
    obtain ⟨l, older, shape, current, past⟩ := h
    refine ⟨l, older, shape, ?_, fun l hl => (past l hl).later now⟩
    refine { current with regular := current.regular.later now, earlier := fun _ r hr => ?_ }
    have within := (List.getElem?_eq_some_iff.mp (current.regular.within r hr)).1
    rw [List.length_append, List.length_singleton]
    omega

theorem Current.same {t : Timer} (h : Current passes spent waiting t l) (called : spent' ↔ spent)
    (left : waiting' → waiting) : Current passes spent' waiting' t l :=
  { h with
    rested := fun no => h.rested (fun yes => no (called.mpr yes))
    ran := fun yes => h.ran (called.mp yes)
    earlier := fun yes => h.earlier (left yes) }

theorem Lived.same (h : Lived passes spent waiting heap lives) (called : spent' ↔ spent)
    (left : waiting' → waiting) : Lived passes spent' waiting' heap lives := by
  cases heap with
  | none => exact h
  | some t =>
    obtain ⟨l, older, shape, current, past⟩ := h
    exact ⟨l, older, shape, current.same called left, past⟩

end Lives

section Ownership

theorem Owned.free (h : Owned s) (free : (s.queue.heap p).isNone) : p ∉ s.owners := by
  rw [h.live p, Option.isSome_iff_ne_none, ne_eq, not_not]
  exact Option.isNone_iff_eq_none.mp free

theorem keyed_timer (he : e ∈ s.keyed) : e.timer ∈ s.owners := by
  have inside : ∀ d ∈ s.phase.spent ++ s.phase.waiting, d ∈ s.phase.held := by
    intro d hd
    unfold TimerPhase.spent TimerPhase.waiting at hd
    unfold TimerPhase.held
    split at hd <;> simp_all
  refine List.mem_map_of_mem ?_
  rcases List.mem_append.mp he with set | vector
  · exact List.mem_append_left _ set
  · exact List.mem_append_right _ (inside e vector)

theorem Owned.of_perm {t : TimerSteps} (h : Owned s) (same : t.owners.Perm s.owners)
    (heap : ∀ p, (t.queue.heap p).isSome = (s.queue.heap p).isSome)
    (keys : ∀ e ∈ t.keyed, (t.queue.deref e.timer).expiration_ = e.timestamp) : Owned t :=
  ⟨same.nodup_iff.mpr h.distinct, fun p => by rw [same.mem_iff, h.live p, heap p], keys⟩

theorem insert_perm {q : TimerQueue} {timer : ℕ} {when : ℤ} {set : OrderedSet Entry}
    (fresh : timer ∉ q.timers_.elements.map Entry.timer)
    (inserted : set = q.timers_.insert (Entry.mk when timer)) :
    set.elements.Perm (Entry.mk when timer :: q.timers_.elements) := by
  rw [inserted]
  exact OrderedSet.place_perm fun mem => fresh (List.mem_map_of_mem mem)

theorem Owned.addTimer (h : Owned s) {t : NewTimer} (free : (s.queue.heap t.timer).isNone) :
    Owned (s.addTimer t) := by
  have absent := h.free free
  have stored : (s.queue.store t.timer (some (Timer.construct t.when t.interval))).deref t.timer =
      Timer.construct t.when t.interval := deref_some heap_store_self
  have entry : (s.addTimer t).queue.timers_ =
      s.queue.timers_.insert (Entry.mk t.when t.timer) := by
    simp only [TimerSteps.addTimer, TimerQueue.insert, stored]
    rfl
  have perm := insert_perm (fun mem => absent (by
    rw [owners, List.map_append]
    exact List.mem_append_left _ mem)) entry
  have owners : (s.addTimer t).owners.Perm (t.timer :: s.owners) :=
    (perm.append_right s.phase.held).map Entry.timer
  refine ⟨owners.nodup_iff.mpr (List.nodup_cons.mpr ⟨absent, h.distinct⟩), fun p => ?_,
    fun e he => ?_⟩
  · rw [owners.mem_iff, List.mem_cons, h.live p]
    by_cases new : p = t.timer
    · have there : (s.addTimer t).queue.heap p = some (Timer.construct t.when t.interval) := by
        rw [new]
        exact heap_store_self
      rw [there]
      simp [new]
    · have same : (s.addTimer t).queue.heap p = s.queue.heap p := heap_store_other new
      rw [same]
      simp [new]
  · have cases : e = Entry.mk t.when t.timer ∨ e ∈ s.keyed :=
      List.mem_cons.mp ((perm.append_right _).mem_iff.mp he)
    rcases cases with rfl | before
    · exact congrArg Timer.expiration_ stored
    · have other : e.timer ≠ t.timer := fun same => absent (same ▸ keyed_timer before)
      exact (congrArg Timer.expiration_ (deref_store_other other)).trans (h.keys e before)

theorem Owned.enter (h : Owned s) (idle : s.phase = .idle) : Owned (s.enter clock) := by
  have whole := OrderedSet.before_append_eraseBefore s.queue.timers_
    (Entry.mk (clock s.queue.readings) 0)
  have before : s.owners = s.queue.timers_.elements.map Entry.timer := by
    rw [owners, idle]
    exact congrArg _ (List.append_nil _)
  refine h.of_perm ?_ (fun _ => rfl) fun e he => h.keys e ?_
  · rw [before, ← whole]
    exact List.perm_append_comm.map _
  · rw [keyed, ← whole]
    refine List.mem_append_left _ ?_
    exact List.perm_append_comm.mem_iff.mp he

theorem Owned.run (h : Owned s) (phase : s.phase = .calling now ran (e :: todo)) :
    Owned (s.run now ran e todo) := by
  have held : (ran ++ [e]) ++ todo = ran ++ e :: todo := List.append_cons ran e todo |>.symm
  refine h.of_perm (List.Perm.of_eq ?_) (fun _ => rfl) fun d hd => h.keys d ?_
  · rw [owners, owners, phase]
    exact congrArg (fun l => (s.queue.timers_.elements ++ l).map Entry.timer) held
  · rw [keyed, phase]
    exact held ▸ hd

theorem Owned.head (h : Owned s) (held : s.phase.held = e :: todo) :
    e.timer ∉ (s.queue.timers_.elements ++ todo).map Entry.timer ∧
      ((s.queue.timers_.elements ++ todo).map Entry.timer).Nodup ∧
        (s.queue.heap e.timer).isSome := by
  have distinct := h.distinct
  rw [owners, held, (List.perm_middle.map Entry.timer).nodup_iff] at distinct
  obtain ⟨alone, rest⟩ := List.nodup_cons.mp distinct
  refine ⟨alone, rest, (h.live e.timer).mp ?_⟩
  rw [owners, held]
  exact List.mem_map_of_mem (List.mem_append_right _ List.mem_cons_self)

theorem turn_repeat (repeats : (s.queue.deref e.timer).repeat_ = true) :
    s.turn clock e todo = { s with
      queue := (s.queue.now clock).2.store e.timer (some (s.queue.deref e.timer).restart)
      phase := .restarted e todo } := by
  rw [turn, if_pos repeats]
  rfl

theorem turn_delete (oneShot : ¬(s.queue.deref e.timer).repeat_ = true) :
    s.turn clock e todo = { s.note e.timer fun l => { l with deletes := l.deletes + 1 } with
      queue := (s.queue.store e.timer none).record (.delete e.timer)
      phase := .rearming todo } := by
  rw [turn, if_neg oneShot]

theorem keyed_tail {d : Entry} (phase : s.phase = .resetting (e :: todo))
    (hd : d ∈ s.queue.timers_.elements ++ todo) : d ∈ s.keyed := by
  rw [keyed, phase]
  change d ∈ s.queue.timers_.elements ++ (e :: todo ++ [])
  rw [List.append_nil]
  exact List.perm_middle.symm.mem_iff.mp (List.mem_cons_of_mem e hd)

/-- Restarting a timer changes the expiration of that timer, which no key goes by now. -/
theorem Owned.restart (h : Owned s) (phase : s.phase = .resetting (e :: todo))
    (repeats : (s.queue.deref e.timer).repeat_ = true) : Owned (s.turn clock e todo) := by
  have held : s.phase.held = e :: todo := by rw [phase]; rfl
  obtain ⟨alone, -, alive⟩ := h.head held
  rw [turn_repeat repeats]
  refine h.of_perm (List.Perm.of_eq ?_) (fun p => ?_) fun d hd => ?_
  · rw [owners, owners, held]
    rfl
  · by_cases same : p = e.timer
    · rw [same, alive]
      exact congrArg Option.isSome heap_store_self
    · exact congrArg Option.isSome (heap_store_other (q := (s.queue.now clock).2) same)
  · have rest : d ∈ s.queue.timers_.elements ++ todo := by
      rw [← List.append_nil todo]
      exact hd
    have other : d.timer ≠ e.timer := fun same => alone (same ▸ List.mem_map_of_mem rest)
    refine (congrArg Timer.expiration_
      (deref_store_other (q := (s.queue.now clock).2) other)).trans (h.keys d ?_)
    exact keyed_tail phase rest

theorem Owned.delete (h : Owned s) (phase : s.phase = .resetting (e :: todo))
    (oneShot : ¬(s.queue.deref e.timer).repeat_ = true) : Owned (s.turn clock e todo) := by
  have held : s.phase.held = e :: todo := by rw [phase]; rfl
  obtain ⟨alone, distinct, -⟩ := h.head held
  have before : ∀ p, p ∈ s.owners ↔
      p = e.timer ∨ p ∈ (s.queue.timers_.elements ++ todo).map Entry.timer := fun p => by
    rw [owners, held, (List.perm_middle.map Entry.timer).mem_iff, List.map_cons, List.mem_cons]
  rw [turn_delete oneShot]
  refine ⟨distinct, fun p => ?_, fun d hd => ?_⟩
  · by_cases same : p = e.timer
    · have gone : (s.queue.store e.timer none).heap e.timer = none := heap_store_self
      rw [same]
      exact iff_of_false alone (Option.not_isSome_iff_eq_none.mpr gone)
    · have kept : (s.queue.store e.timer none).heap p = s.queue.heap p := heap_store_other same
      have owned := (before p).symm.trans (h.live p)
      rw [or_iff_right same, ← kept] at owned
      exact owned
  · have rest : d ∈ s.queue.timers_.elements ++ todo := by
      rw [← List.append_nil todo]
      exact hd
    have other : d.timer ≠ e.timer := fun same => alone (same ▸ List.mem_map_of_mem rest)
    exact (congrArg Timer.expiration_ (deref_store_other (q := s.queue) other)).trans
      (h.keys d (keyed_tail phase rest))

theorem Owned.insert (h : Owned s) (phase : s.phase = .restarted e todo) :
    Owned { s with
      queue := (s.queue.insert e.timer).1
      phase := .rearming todo } := by
  have held : s.phase.held = e :: todo := by rw [phase]; rfl
  obtain ⟨alone, -, -⟩ := h.head held
  have perm : (s.queue.insert e.timer).1.timers_.elements.Perm
      (Entry.mk (s.queue.deref e.timer).expiration_ e.timer :: s.queue.timers_.elements) :=
    insert_perm (fun mem => alone (by
      rw [List.map_append]
      exact List.mem_append_left _ mem)) rfl
  refine h.of_perm ?_ (fun _ => rfl) fun d hd => ?_
  · rw [owners, owners, held]
    refine ((perm.append_right todo).map Entry.timer).trans ?_
    change ((e :: (s.queue.timers_.elements ++ todo)).map Entry.timer).Perm _
    exact (List.perm_middle.map Entry.timer).symm
  · rcases List.mem_cons.mp ((perm.append_right _).mem_iff.mp hd) with rfl | before
    · rfl
    · refine h.keys d ?_
      rw [keyed, phase]
      exact before

end Ownership

section Steps

theorem Historic.still {t : TimerSteps} (h : Historic s) (heap : t.queue.heap = s.queue.heap)
    (set : t.queue.timers_ = s.queue.timers_) (held : t.phase.held = s.phase.held)
    (spent : t.phase.spent = s.phase.spent) (waiting : t.phase.waiting = s.phase.waiting)
    (passes : t.passes = s.passes) (fired : t.fired = s.fired) (lives : t.lives = s.lives)
    (reading : ∀ now ∈ t.phase.reading, now ∈ s.phase.reading) : Historic t := by
  refine ⟨?_, fun p => ?_, fun now mem => ?_, ?_⟩
  · refine h.owned.of_perm (List.Perm.of_eq ?_) (fun p => by rw [heap]) fun e he => ?_
    · rw [owners, owners, set, held]
    · rw [deref, heap]
      refine h.owned.keys e ?_
      rw [keyed, ← set, ← spent, ← waiting]
      exact he
  · rw [heap, spent, waiting, passes, lives]
    exact h.lived p
  · rw [waiting, passes]
    exact h.due now (reading now mem)
  · rw [waiting, fired]
    exact h.ordered

theorem spent_owned (h : p ∈ s.phase.spent.map Entry.timer) : p ∈ s.owners := by
  obtain ⟨e, he, rfl⟩ := List.mem_map.mp h
  exact keyed_timer (List.mem_append_right _ (List.mem_append_left _ he))

theorem waiting_owned (h : p ∈ s.phase.waiting.map Entry.timer) : p ∈ s.owners := by
  obtain ⟨e, he, rfl⟩ := List.mem_map.mp h
  exact keyed_timer (List.mem_append_right _ (List.mem_append_right _ he))

theorem Current.new (passes : List ℤ) {spent waiting : Prop} (when : ℤ) (interval : Interval)
    (rests : ¬spent) : Current passes spent waiting (Timer.construct when interval)
      ⟨when, interval, [], 0⟩ where
  regular := ⟨by simp, by simp, .nil⟩
  kept := rfl
  interval := rfl
  repeats := rfl
  rested _ := ⟨by simp [Timer.construct], fun _ => rfl⟩
  ran called := absurd called rests
  earlier _ := by simp

theorem Historic.addTimer (h : Historic s) {t : NewTimer}
    (free : (s.queue.heap t.timer).isNone) : Historic (s.addTimer t) := by
  refine ⟨h.owned.addTimer free, fun p => ?_, h.due, h.ordered⟩
  by_cases new : p = t.timer
  · have heap : (s.addTimer t).queue.heap p = some (Timer.construct t.when t.interval) := by
      rw [new]
      exact heap_store_self
    have lives : (s.addTimer t).lives p = ⟨t.when, t.interval, [], 0⟩ :: s.lives p := by
      rw [new]
      exact Function.update_self _ _ _
    have past := h.lived p
    have absent := h.owned.free free
    rw [new, Option.isNone_iff_eq_none.mp free] at past
    rw [heap, lives, new]
    exact ⟨_, _, rfl, .new _ _ _ fun called => absent (spent_owned called), past⟩
  · have heap : (s.addTimer t).queue.heap p = s.queue.heap p := heap_store_other new
    have lives : (s.addTimer t).lives p = s.lives p := Function.update_of_ne new _ _
    rw [heap, lives]
    exact h.lived p

theorem before_sorted (q : TimerQueue) (sentry : Entry) :
    ((q.timers_.before sentry).map Entry.timestamp).Pairwise (· ≤ ·) := by
  refine List.pairwise_map.mpr ((OrderedSet.before_ascending _ _).imp fun {d e} lt => ?_)
  rcases Prod.Lex.lt_iff.mp lt with earlier | ⟨same, -⟩
  · exact earlier.le
  · exact same.le

theorem Historic.enter (h : Historic s) (idle : s.phase = .idle) : Historic (s.enter clock) := by
  refine ⟨h.owned.enter idle, fun p => ?_, fun now mem => ?_, ?_⟩
  · refine ((h.lived p).later (clock s.queue.readings)).same ?_ id
    rw [idle]
    exact Iff.rfl
  · obtain rfl : clock s.queue.readings = now := Option.some.inj mem
    refine ⟨?_, fun e he => (mem_expired.mp he).2⟩
    change (s.passes ++ [_])[(s.passes ++ [_]).length - 1]? = _
    simp
  · exact before_sorted _ _

theorem Historic.current (h : Historic s) (alive : (s.queue.heap p).isSome) :
    ∃ l older, s.lives p = l :: older ∧
      Current s.passes (p ∈ s.phase.spent.map Entry.timer)
        (p ∈ s.phase.waiting.map Entry.timer) (s.queue.deref p) l ∧
      ∀ l ∈ older, Finished s.passes l := by
  obtain ⟨t, there⟩ := Option.isSome_iff_exists.mp alive
  have lived := h.lived p
  rw [there] at lived
  rw [deref_some there]
  exact lived

theorem Current.run {passes : List ℤ} {t : Timer} {l : TimerLife} (now : ℤ)
    (h : Current passes False True t l) (due : t.expiration_ ≤ now)
    (pass : passes[passes.length - 1]? = some now) :
    Current passes True False t
      { l with runs := l.runs ++ [⟨t.expiration_, now, passes.length - 1⟩] } := by
  obtain ⟨expiration, once⟩ := h.rested id
  have room := (List.getElem?_eq_some_iff.mp pass).1
  refine ⟨⟨fun k r hr => ?_, fun r hr => ?_, ?_⟩, h.kept, h.interval, h.repeats,
    fun no => absurd trivial no, fun _ => ⟨?_, fun oneShot => ?_⟩, fun no => no.elim⟩
  · rcases Nat.lt_trichotomy k l.runs.length with before | at_ | after
    · rw [List.getElem?_append_left before] at hr
      exact h.regular.onTime k r hr
    · rw [at_, List.getElem?_concat_length] at hr
      obtain rfl := Option.some.inj hr
      exact ⟨at_ ▸ expiration, due⟩
    · rw [List.getElem?_eq_none (by simp; omega)] at hr
      cases hr
  · rcases List.mem_append.mp hr with before | new
    · exact h.regular.within r before
    · rw [List.mem_singleton.mp new]
      exact pass
  · refine List.pairwise_append.mpr ⟨h.regular.apart, List.pairwise_singleton _ _, ?_⟩
    intro r hr r' hr'
    have earlier := h.earlier trivial r hr
    rw [List.mem_singleton.mp hr']
    simp only
    omega
  · rw [expiration, List.length_append, List.length_singleton]
    push_cast
    rw [Int.add_mul, Int.one_mul, Int.add_assoc]
  · rw [once oneShot]
    rfl

theorem Owned.alone (h : Owned s) (phase : s.phase = .calling now ran (e :: todo)) :
    e.timer ∉ (ran ++ todo).map Entry.timer := by
  have distinct := h.distinct
  rw [owners, phase] at distinct
  have vector : ((ran ++ e :: todo).map Entry.timer).Nodup :=
    distinct.sublist ((List.sublist_append_right _ _).map Entry.timer)
  exact (List.nodup_cons.mp ((List.perm_middle.map Entry.timer).nodup_iff.mp vector)).1

theorem Historic.upcoming (h : Historic s) (phase : s.phase = .calling now ran (e :: todo)) :
    ∃ t l older, s.queue.heap e.timer = some t ∧ t.expiration_ = e.timestamp ∧
      s.lives e.timer = l :: older ∧ Current s.passes False True t l ∧
        ∀ l ∈ older, Finished s.passes l := by
  have waits : e ∈ s.phase.waiting := by
    rw [phase]
    exact List.mem_cons_self
  have key : (s.queue.deref e.timer).expiration_ = e.timestamp :=
    h.owned.keys e (List.mem_append_right _ (List.mem_append_right _ waits))
  obtain ⟨t, there⟩ := Option.isSome_iff_exists.mp
    ((h.owned.live e.timer).mp (waiting_owned (List.mem_map_of_mem waits)))
  have lived := h.lived e.timer
  rw [there] at lived
  obtain ⟨l, older, shape, current, past⟩ := lived
  rw [deref_some there] at key
  refine ⟨t, l, older, there, key, shape, ?_, past⟩
  refine current.same (iff_of_false id fun mem => h.owned.alone phase ?_) fun _ =>
    List.mem_map_of_mem waits
  rw [phase] at mem
  exact (List.sublist_append_left ran todo).map Entry.timer |>.mem mem

theorem Historic.run (h : Historic s) (phase : s.phase = .calling now ran (e :: todo)) :
    Historic (s.run now ran e todo) := by
  obtain ⟨pass, due⟩ := h.due now (by rw [phase]; rfl)
  obtain ⟨t, l, older, there, key, shape, current, past⟩ := h.upcoming phase
  have waits : e ∈ s.phase.waiting := by
    rw [phase]
    exact List.mem_cons_self
  have called : ∀ p ≠ e.timer, p ∈ (ran ++ [e]).map Entry.timer ↔ p ∈ ran.map Entry.timer := by
    intro p other
    simp [other]
  refine ⟨h.owned.run phase, fun p => ?_, fun again mem => ?_, ?_⟩
  · by_cases same : p = e.timer
    · rw [same]
      have after := current.run now (key ▸ (due e waits).le) pass
      have heap : (s.run now ran e todo).queue.heap e.timer = some t := there
      have lives : (s.run now ran e todo).lives e.timer =
          { l with runs := l.runs ++ [⟨t.expiration_, now, s.passes.length - 1⟩] } :: older := by
        change Function.update s.lives e.timer _ e.timer = _
        rw [Function.update_self, shape, deref_some there]
        rfl
      rw [heap, lives]
      refine ⟨_, older, rfl, after.same (iff_of_true ?_ trivial) fun mem =>
        h.owned.alone phase ?_, past⟩
      · exact List.mem_map_of_mem (List.mem_append_right _ List.mem_cons_self)
      · exact (List.sublist_append_right ran todo).map Entry.timer |>.mem mem
    · have lives : (s.run now ran e todo).lives p = s.lives p := Function.update_of_ne same _ _
      rw [lives]
      have lived := h.lived p
      rw [phase] at lived
      exact lived.same (called p same) fun mem => List.mem_cons_of_mem _ mem
  · obtain rfl := Option.some.inj mem
    refine ⟨pass, fun d hd => due d ?_⟩
    rw [phase]
    exact List.mem_cons_of_mem e hd
  · have sorted := h.ordered
    rw [phase] at sorted
    change ((s.fired ++ [(s.queue.deref e.timer).expiration_]) ++ _).Pairwise _
    rw [deref_some there, key, List.append_assoc]
    exact sorted

theorem Current.restart {passes : List ℤ} {waiting : Prop} {t : Timer} {l : TimerLife}
    (h : Current passes True waiting t l) (repeats : t.repeat_ = true) :
    Current passes False False t.restart l := by
  have moved : t.restart = { t with expiration_ := t.expiration_ + t.interval_.micros } :=
    if_pos repeats
  have positive : l.interval.positive = true := h.repeats.symm.trans repeats
  rw [moved]
  refine ⟨h.regular, h.kept, h.interval, h.repeats, fun _ => ⟨?_, fun no => ?_⟩, fun no => no.elim,
    fun no => no.elim⟩
  · rw [h.interval]
    exact (h.ran trivial).1
  · rw [positive] at no
    cases no

theorem Current.delete {passes : List ℤ} {waiting : Prop} {t : Timer} {l : TimerLife}
    (h : Current passes True waiting t l) (oneShot : ¬t.repeat_ = true) :
    Finished passes { l with deletes := l.deletes + 1 } := by
  have once : l.interval.positive = false := h.repeats.symm.trans (Bool.not_eq_true _ ▸ oneShot)
  refine ⟨⟨h.regular.onTime, h.regular.within, h.regular.apart⟩, ?_, once, (h.ran trivial).2 once⟩
  simp only [h.kept]

theorem Historic.turned (h : Historic s) (phase : s.phase = .resetting (e :: todo)) :
    (∃ t l older, s.queue.heap e.timer = some t ∧ s.lives e.timer = l :: older ∧
      Current s.passes True False t l ∧ ∀ l ∈ older, Finished s.passes l) ∧
    e.timer ∉ todo.map Entry.timer ∧
      ∀ p ≠ e.timer,
        Lived s.passes (p ∈ todo.map Entry.timer) False (s.queue.heap p) (s.lives p) := by
  have held : s.phase.held = e :: todo := by rw [phase]; rfl
  obtain ⟨alone, -, alive⟩ := h.owned.head held
  refine ⟨?_, fun mem => alone ?_, fun p other => ?_⟩
  · obtain ⟨t, there⟩ := Option.isSome_iff_exists.mp alive
    have lived := h.lived e.timer
    rw [there, phase] at lived
    obtain ⟨l, older, shape, current, past⟩ := lived
    refine ⟨t, l, older, there, shape, current.same (iff_of_true trivial ?_) False.elim, past⟩
    exact List.mem_map_of_mem List.mem_cons_self
  · rw [List.map_append]
    exact List.mem_append_right _ mem
  · have lived := h.lived p
    rw [phase] at lived
    refine lived.same ?_ False.elim
    change _ ↔ p ∈ (e :: todo).map Entry.timer
    rw [List.map_cons, List.mem_cons, or_iff_right other]

theorem Historic.restart (h : Historic s) (phase : s.phase = .resetting (e :: todo))
    (repeats : (s.queue.deref e.timer).repeat_ = true) : Historic (s.turn clock e todo) := by
  have owned : Owned (s.turn clock e todo) := h.owned.restart phase repeats
  obtain ⟨⟨t, l, older, there, shape, current, past⟩, alone, others⟩ := h.turned phase
  rw [turn_repeat repeats] at owned ⊢
  rw [deref_some there] at repeats
  refine ⟨owned, fun p => ?_, fun now mem => ?_, ?_⟩
  · by_cases same : p = e.timer
    · rw [same]
      change Lived s.passes (e.timer ∈ todo.map Entry.timer) _
        (((s.queue.now clock).2.store e.timer (some (s.queue.deref e.timer).restart)).heap e.timer)
        (s.lives e.timer)
      rw [heap_store_self, deref_some there, shape]
      refine ⟨l, older, rfl, (current.restart repeats).same (iff_of_false alone id) ?_, past⟩
      exact fun mem => absurd mem List.not_mem_nil
    · have heap := heap_store_other (q := (s.queue.now clock).2)
        (t := some (s.queue.deref e.timer).restart) same
      change Lived s.passes (p ∈ todo.map Entry.timer) _ (TimerQueue.heap _ p) (s.lives p)
      rw [heap]
      exact (others p same).same Iff.rfl fun mem => absurd mem List.not_mem_nil
  · cases mem
  · have sorted := h.ordered
    rw [phase] at sorted
    exact sorted

theorem Historic.delete (h : Historic s) (phase : s.phase = .resetting (e :: todo))
    (oneShot : ¬(s.queue.deref e.timer).repeat_ = true) : Historic (s.turn clock e todo) := by
  have owned : Owned (s.turn clock e todo) := h.owned.delete phase oneShot
  obtain ⟨⟨t, l, older, there, shape, current, past⟩, alone, others⟩ := h.turned phase
  rw [turn_delete oneShot] at owned ⊢
  rw [deref_some there] at oneShot
  refine ⟨owned, fun p => ?_, fun now mem => ?_, ?_⟩
  · by_cases same : p = e.timer
    · rw [same]
      change Lived s.passes _ _ ((s.queue.store e.timer none).heap e.timer)
        (Function.update s.lives e.timer ((s.lives e.timer).modifyHead fun l =>
          { l with deletes := l.deletes + 1 }) e.timer)
      rw [heap_store_self, Function.update_self, shape]
      exact List.forall_mem_cons.mpr ⟨current.delete oneShot, past⟩
    · have heap := heap_store_other (q := s.queue) (t := none) same
      have lives : (s.note e.timer fun l => { l with deletes := l.deletes + 1 }).lives p =
          s.lives p := Function.update_of_ne same _ _
      change Lived s.passes (p ∈ todo.map Entry.timer) _ ((s.queue.store e.timer none).heap p)
        ((s.note e.timer fun l => { l with deletes := l.deletes + 1 }).lives p)
      rw [heap, lives]
      exact (others p same).same Iff.rfl fun mem => absurd mem List.not_mem_nil
  · cases mem
  · have sorted := h.ordered
    rw [phase] at sorted
    exact sorted

theorem Historic.insert (h : Historic s) (phase : s.phase = .restarted e todo) :
    Historic { s with
      queue := (s.queue.insert e.timer).1
      phase := .rearming todo } := by
  refine ⟨h.owned.insert phase, fun p => ?_, fun now mem => ?_, ?_⟩
  · have lived := h.lived p
    rw [phase] at lived
    exact lived
  · cases mem
  · have sorted := h.ordered
    rw [phase] at sorted
    exact sorted

theorem rearm_still (clock : ℕ → ℤ) (q : TimerQueue) :
    (match q.timers_.first? with
      | none => q
      | some first => q.resetTimerfd clock (q.deref first.timer).expiration_).heap = q.heap ∧
    (match q.timers_.first? with
      | none => q
      | some first => q.resetTimerfd clock (q.deref first.timer).expiration_).timers_ =
        q.timers_ := by
  split <;> exact ⟨rfl, rfl⟩

theorem Historic.proceed {t : TimerSteps} (h : Historic s) (hn : s.proceed clock = some t) :
    Historic t := by
  unfold TimerSteps.proceed at hn
  split at hn
  case h_1 => cases hn
  case h_2 phase =>
    obtain rfl := Option.some.inj hn
    exact h.run phase
  case h_3 phase =>
    obtain rfl := Option.some.inj hn
    refine h.still rfl rfl ?_ ?_ ?_ rfl rfl rfl ?_ <;> rw [phase]
    · rfl
    · rfl
    · rfl
    · exact fun _ => id
  case h_4 ran phase =>
    obtain rfl := Option.some.inj hn
    refine h.still rfl rfl ?_ ?_ ?_ rfl rfl rfl ?_ <;> rw [phase]
    · exact (List.append_nil ran).symm
    · rfl
    · rfl
    · exact fun _ mem => absurd mem (Option.not_mem_none _)
  case h_5 e todo phase =>
    obtain rfl := Option.some.inj hn
    by_cases repeats : (s.queue.deref e.timer).repeat_ = true
    · exact h.restart phase repeats
    · exact h.delete phase repeats
  case h_6 phase =>
    obtain rfl := Option.some.inj hn
    exact h.insert phase
  case h_7 todo phase =>
    obtain rfl := Option.some.inj hn
    obtain ⟨heap, set⟩ := rearm_still clock s.queue
    refine h.still heap set ?_ ?_ ?_ rfl rfl rfl ?_ <;> rw [phase]
    · rfl
    · rfl
    · rfl
    · exact fun _ => id
  case h_8 phase =>
    obtain rfl := Option.some.inj hn
    refine h.still rfl rfl ?_ ?_ ?_ rfl rfl rfl ?_ <;> rw [phase]
    · rfl
    · rfl
    · rfl
    · exact fun _ => id

theorem Historic.next {t : TimerSteps} {a : Action} (h : Historic s)
    (hn : next clock s a = some t) : Historic t := by
  cases a with
  | expire =>
    obtain ⟨-, rfl⟩ := guard_met hn
    exact h.still rfl rfl rfl rfl rfl rfl rfl rfl fun _ => id
  | proceed =>
    simp only [TimerSteps.next] at hn
    split at hn
    · exact h.proceed hn
    · obtain rfl := Option.some.inj hn
      exact h.still rfl rfl rfl rfl rfl rfl rfl rfl fun _ => id
  | addTimer t =>
    obtain ⟨⟨-, -, -, free⟩, rfl⟩ := guard_met hn
    exact h.addTimer free
  | handleRead =>
    simp only [TimerSteps.next] at hn
    split at hn
    · rename_i idle
      obtain rfl := Option.some.inj hn
      exact h.enter idle
    · cases hn

theorem historic (h : (timerSteps clock).Reachable Any s) : Historic s := by
  refine h.invariant (P := Historic) ?_ fun _ _ _ hs _ hn => hs.next hn
  rintro s rfl
  refine ⟨⟨List.nodup_nil, fun p => ?_, fun e he => ?_⟩, fun p l hl => ?_, ?_, .nil⟩
  · exact iff_of_false List.not_mem_nil (by simp [resting, construct])
  · exact absurd he List.not_mem_nil
  · exact absurd hl List.not_mem_nil
  · exact fun _ mem => absurd mem (Option.not_mem_none _)

end Steps

section Results

/-- Between two steps: every timer added and not deleted is in one entry, of the set or of the
vector; the keys of the set are the expirations; a timer is deleted once at most, after its
only run, and has been when `handleRead` has returned. -/
structure Consistent (s : TimerSteps) : Prop where
  owned : ∀ p, s.owners.count p = (s.lives p).countP fun l => l.deletes = 0
  once : s.owners.Nodup
  keys : ∀ e ∈ s.queue.timers_.elements, ∃ t, s.queue.heap e.timer = some t ∧
    e.timestamp = t.expiration_
  deleted : ∀ p, ∀ l ∈ s.lives p, l.deletes = 0 ∨
    l.deletes = 1 ∧ l.interval.positive = false ∧ l.runs.length = 1
  returned : s.phase = .idle → ∀ p, ∀ l ∈ s.lives p, l.interval.positive = false →
    l.runs ≠ [] → l.deletes = 1

/-- The `k`-th run of a timer, counted from 0, has the expiration `when + k * d`, in a
`handleRead` with a reading not before it; no two are in one `handleRead`, one-shot timers
run once, and the expirations run in one `handleRead` never decrease. -/
structure Punctual (s : TimerSteps) : Prop where
  onTime : ∀ p, ∀ l ∈ s.lives p, ∀ (k : ℕ) r, l.runs[k]? = some r →
    r.expiration = l.when + k * l.interval.micros ∧ s.passes[r.pass]? = some r.now ∧
      r.expiration ≤ r.now
  apart : ∀ p, ∀ l ∈ s.lives p, l.runs.Pairwise fun r later => r.pass < later.pass
  oneShot : ∀ p, ∀ l ∈ s.lives p, l.interval.positive = false → l.runs.length ≤ 1
  ordered : s.fired.Pairwise (· ≤ ·)

variable {passes : List ℤ} {spent waiting : Prop} {heap : Option Timer}
  {lives : List TimerLife} {l : TimerLife}

theorem Lived.cases (h : Lived passes spent waiting heap lives) (hl : l ∈ lives) :
    Finished passes l ∨ ∃ t, heap = some t ∧ Current passes spent waiting t l := by
  cases heap with
  | none => exact .inl (h l hl)
  | some t =>
    obtain ⟨l', older, rfl, current, past⟩ := h
    rcases List.mem_cons.mp hl with rfl | before
    · exact .inr ⟨t, rfl, current⟩
    · exact .inl (past l before)

theorem Lived.regular (h : Lived passes spent waiting heap lives) (hl : l ∈ lives) :
    Regular passes l := by
  rcases h.cases hl with past | ⟨t, -, current⟩
  · exact past.regular
  · exact current.regular

/-- One life goes on where a timer is on the heap, and none elsewhere. -/
theorem Lived.count (h : Lived passes spent waiting heap lives) :
    (lives.countP fun l => l.deletes = 0) = if heap.isSome then 1 else 0 := by
  have past : ∀ older : List TimerLife, (∀ l ∈ older, Finished passes l) →
      (older.countP fun l => l.deletes = 0) = 0 := fun older finished => by
    refine List.countP_eq_zero.mpr fun l hl => ?_
    simp [(finished l hl).deleted]
  cases heap with
  | none => exact past lives h
  | some t =>
    obtain ⟨l, older, rfl, current, finished⟩ := h
    rw [List.countP_cons_of_pos (by simpa using current.kept), past older finished]
    rfl

/-- Ownership, keys and deletions over all runs. -/
theorem timers_consistent (h : (timerSteps clock).Reachable Any s) : Consistent s := by
  have hs := historic h
  refine ⟨fun p => ?_, hs.owned.distinct, fun e he => ?_, fun p l hl => ?_,
    fun idle p l hl oneShot run => ?_⟩
  · rw [(hs.lived p).count]
    by_cases alive : (s.queue.heap p).isSome
    · rw [if_pos alive]
      exact List.count_eq_one_of_mem hs.owned.distinct ((hs.owned.live p).mpr alive)
    · rw [if_neg alive]
      exact List.count_eq_zero_of_not_mem fun mem => alive ((hs.owned.live p).mp mem)
  · have set : e ∈ s.keyed := List.mem_append_left _ he
    obtain ⟨t, there⟩ := Option.isSome_iff_exists.mp
      ((hs.owned.live e.timer).mp (keyed_timer set))
    have key := hs.owned.keys e set
    rw [deref_some there] at key
    exact ⟨t, there, key.symm⟩
  · rcases (hs.lived p).cases hl with past | ⟨t, -, current⟩
    · exact .inr ⟨past.deleted, past.oneShot, past.once⟩
    · exact .inl current.kept
  · have lived := hs.lived p
    rw [idle] at lived
    rcases lived.cases hl with past | ⟨t, -, current⟩
    · exact past.deleted
    · exact absurd ((current.rested List.not_mem_nil).2 oneShot) run

/-- A repeating timer whose callback adds a one-shot timer, which a later `handleRead` deletes;
its address is used again. -/
theorem timers_consistent_reused :
    ∃ s, (timerSteps fun n => 1000 + 10 * n).Reachable Any s ∧
      s.owners = [1, 2] ∧ (s.lives 2).map (·.deletes) = [0, 1] ∧ Consistent s := by
  have run : ((timerSteps fun n => 1000 + 10 * n).execute Any (resting TimerQueue.construct)
      [.addTimer ⟨1, 1005, true, 50⟩, .proceed, .handleRead, .proceed,
        .addTimer ⟨2, 1002, false, 0⟩, .proceed, .proceed, .proceed, .proceed, .proceed, .proceed,
        .proceed, .handleRead, .proceed, .proceed, .proceed, .proceed, .proceed, .proceed,
        .addTimer ⟨2, 2000, true, 7⟩]).map
      (fun s => (s.owners, (s.lives 2).map (·.deletes))) = some ([1, 2], [0, 1]) := by
    decide +kernel
  obtain ⟨s, reached, ends⟩ := System.Reachable.of_replay rfl run
  obtain ⟨owners, deletes⟩ := Prod.mk.inj ends
  exact ⟨s, reached, owners, deletes, timers_consistent reached⟩

/-- Runs on time, once in a pass, in order, over all runs. -/
theorem timers_punctual (h : (timerSteps clock).Reachable Any s) : Punctual s := by
  have hs := historic h
  refine ⟨fun p l hl k r hr => ?_, fun p l hl => ((hs.lived p).regular hl).apart,
    fun p l hl oneShot => ?_, ?_⟩
  · have regular := (hs.lived p).regular hl
    obtain ⟨expiration, due⟩ := regular.onTime k r hr
    exact ⟨expiration, regular.within r (List.mem_of_getElem? hr), due⟩
  · rcases (hs.lived p).cases hl with past | ⟨t, -, current⟩
    · exact past.once.le
    · by_cases spent : p ∈ s.phase.spent.map Entry.timer
      · exact ((current.ran spent).2 oneShot).le
      · rw [(current.rested spent).2 oneShot]
        exact Nat.zero_le 1
  · exact (List.pairwise_append.mp hs.ordered).1

/-- The second run of a timer that is late by more than a period, before that of one that
was added in between. -/
theorem timers_punctual_late :
    ∃ s, (timerSteps fun n => 1000 + 40 * n).Reachable Any s ∧
      s.fired = [1010, 1030] ∧ (s.lives 1).map (·.runs.length) = [2] ∧ Punctual s := by
  have run : ((timerSteps fun n => 1000 + 40 * n).execute Any (resting TimerQueue.construct)
      [.addTimer ⟨1, 1005, true, 5⟩, .proceed, .handleRead, .proceed,
        .addTimer ⟨2, 1030, false, 0⟩, .proceed, .proceed, .proceed, .proceed, .proceed, .proceed,
        .proceed, .handleRead, .proceed, .proceed, .proceed]).map
      (fun s => (s.fired, (s.lives 1).map (·.runs.length))) = some ([1010, 1030], [2]) := by
    decide +kernel
  obtain ⟨s, reached, ends⟩ := System.Reachable.of_replay rfl run
  obtain ⟨fired, runs⟩ := Prod.mk.inj ends
  exact ⟨s, reached, fired, runs, timers_punctual reached⟩

end Results

end TimerSteps

end TinyNetwork
