import TinyNetwork.FifoTransfer
import TinyNetwork.PendingWork
import Mathlib.Algebra.Order.Group.Multiset

/-! The pool of `base/ThreadPool.h` with `n` workers, any threads calling `enqueue`, and the
destructor. The critical sections under `queue_mutex_`, the notifications and the end of a
task are single steps; a waiting worker may wake up at any time and tests its predicate
again. A task is known by the number of the call that makes it; what it does, and what its
`packaged_task` keeps when it throws, ends with it. The tasks inserted, taken and executed are
recorded in order. -/
namespace TinyNetwork
open Transition FifoTransfer

/-- A worker: before its critical section, in `condition_.wait`, in `task()`, or returned. A
worker that is not created yet has not reached its first critical section. -/
inductive WorkerPc where
  | testing
  | waiting
  | running (task : ℕ)
  | exited
  deriving DecidableEq

def WorkerPc.notified : WorkerPc → WorkerPc
  | .waiting => .testing
  | p => p

def WorkerPc.held : WorkerPc → Multiset ℕ
  | .testing => 0
  | .waiting => 0
  | .running task => {task}
  | .exited => 0

theorem notified_awake (p : WorkerPc) : p.notified ≠ .waiting := by
  cases p <;> simp [WorkerPc.notified]

theorem notified_exited {p : WorkerPc} : p.notified = .exited ↔ p = .exited := by
  cases p <;> simp [WorkerPc.notified]

theorem notified_held (p : WorkerPc) : p.notified.held = p.held := by
  cases p <;> rfl

def WorkerPc.active : WorkerPc → ℕ
  | .testing => 1
  | .waiting => 0
  | .running _ => 1
  | .exited => 0

def WorkerPc.rank : WorkerPc → ℕ
  | .testing => 1
  | .waiting => 1
  | .running _ => 2
  | .exited => 0

/-- A calling thread: outside `enqueue`, with its `packaged_task` made, past the insertion, and
after a call that returned the future or threw. -/
inductive ClientPc where
  | idle
  | made (task : ℕ)
  | inserted (task : ℕ)
  | returned (task : ℕ)
  | threw (task : ℕ)
  deriving DecidableEq

def ClientPc.task : ClientPc → Option ℕ
  | .idle => none
  | .made task => some task
  | .inserted task => some task
  | .returned task => some task
  | .threw task => some task

def ClientPc.accepted : ClientPc → Bool
  | .inserted _ => true
  | .returned _ => true
  | _ => false

/-- The destructor: not called, past the store to `stop_`, with the first `k` workers joined,
or returned. -/
inductive DestructorPc where
  | outside
  | stopped
  | joining (k : ℕ)
  | returned
  deriving DecidableEq

structure ThreadPool (Θ : Type*) (n : ℕ) where
  tasks_ : List ℕ
  stop_ : Bool
  worker : Fin n → WorkerPc
  client : Θ → ClientPc
  destructor : DestructorPc
  calls : ℕ
  accepted : List ℕ
  taken : List ℕ
  executed : List ℕ

namespace ThreadPool

variable {Θ : Type*} {n : ℕ} [DecidableEq Θ]

def construct : ThreadPool Θ n where
  tasks_ := []
  stop_ := false
  worker := fun _ => .testing
  client := fun _ => .idle
  destructor := .outside
  calls := 0
  accepted := []
  taken := []
  executed := []

def goto (s : ThreadPool Θ n) (t : Θ) (p : ClientPc) : ThreadPool Θ n :=
  { s with client := Function.update s.client t p }

def turn (s : ThreadPool Θ n) (w : Fin n) (p : WorkerPc) : ThreadPool Θ n :=
  { s with worker := Function.update s.worker w p }

@[simp] theorem goto_self (s : ThreadPool Θ n) (t : Θ) (p : ClientPc) :
    (s.goto t p).client t = p := Function.update_self _ _ _

theorem goto_other (s : ThreadPool Θ n) {t u : Θ} (h : u ≠ t) (p : ClientPc) :
    (s.goto t p).client u = s.client u := Function.update_of_ne h _ _

omit [DecidableEq Θ] in
@[simp] theorem turn_self (s : ThreadPool Θ n) (w : Fin n) (p : WorkerPc) :
    (s.turn w p).worker w = p := Function.update_self _ _ _

omit [DecidableEq Θ] in
theorem turn_other (s : ThreadPool Θ n) {w v : Fin n} (h : v ≠ w) (p : WorkerPc) :
    (s.turn w p).worker v = s.worker v := Function.update_of_ne h _ _

inductive Action (Θ : Type*) (n : ℕ) where
  | call (t : Θ)
  | insert (t : Θ)
  | notify_one (t : Θ) (chosen : Option (Fin n))
  | take (w : Fin n)
  | wake (w : Fin n)
  | finish (w : Fin n)
  | stop
  | notify_all
  | join

def insertTask (s : ThreadPool Θ n) (t : Θ) (task : ℕ) : ThreadPool Θ n :=
  if s.stop_ then s.goto t (.threw task)
  else { s.goto t (.inserted task) with
    tasks_ := s.tasks_ ++ [task], accepted := s.accepted ++ [task] }

/-- The critical section of a worker; `front` of an empty queue is `none`. -/
def takeTask (s : ThreadPool Θ n) (w : Fin n) : Option (ThreadPool Θ n) :=
  if ¬(s.stop_ ∨ ¬s.tasks_.isEmpty) then some (s.turn w .waiting)
  else if s.stop_ ∧ s.tasks_.isEmpty then some (s.turn w .exited)
  else
    match s.tasks_ with
    | [] => none
    | task :: rest =>
      some { s.turn w (.running task) with tasks_ := rest, taken := s.taken ++ [task] }

def next (s : ThreadPool Θ n) : Action Θ n → Option (ThreadPool Θ n)
  | .call t =>
    match s.client t with
    | .made _ => none
    | .inserted _ => none
    | _ => some { s.goto t (.made s.calls) with calls := s.calls + 1 }
  | .insert t =>
    match s.client t with
    | .made task => some (s.insertTask t task)
    | _ => none
  | .notify_one t chosen =>
    match s.client t, chosen with
    | .inserted task, none =>
      if ∀ w, s.worker w ≠ .waiting then some (s.goto t (.returned task)) else none
    | .inserted task, some w =>
      if s.worker w = .waiting then some ((s.goto t (.returned task)).turn w .testing) else none
    | _, _ => none
  | .take w => if s.worker w = .testing then s.takeTask w else none
  | .wake w => if s.worker w = .waiting then some (s.turn w .testing) else none
  | .finish w =>
    match s.worker w with
    | .running task => some { s.turn w .testing with executed := s.executed ++ [task] }
    | _ => none
  | .stop =>
    if s.destructor = .outside then some { s with stop_ := true, destructor := .stopped } else none
  | .notify_all =>
    if s.destructor = .stopped then
      some { s with worker := fun w => (s.worker w).notified, destructor := .joining 0 }
    else none
  | .join =>
    match s.destructor with
    | .joining k =>
      -- a worker is `joinable()` until it is joined
      if h : k < n then
        if s.worker ⟨k, h⟩ = .exited then some { s with destructor := .joining (k + 1) } else none
      else some { s with destructor := .returned }
    | _ => none

def threadPool (Θ : Type*) (n : ℕ) [DecidableEq Θ] :
    System (ThreadPool Θ n) (Action Θ n) where
  init s := s = construct
  next := next

section Steps
variable {s u : ThreadPool Θ n}

inductive Step (s : ThreadPool Θ n) : ThreadPool Θ n → Prop where
  | call (t : Θ) (quiet : ∀ task, s.client t ≠ .inserted task) :
    Step s { s.goto t (.made s.calls) with calls := s.calls + 1 }
  | insert (t : Θ) (task : ℕ) (made : s.client t = .made task) (open_ : s.stop_ = false) :
    Step s { s.goto t (.inserted task) with
      tasks_ := s.tasks_ ++ [task], accepted := s.accepted ++ [task] }
  | refuse (t : Θ) (task : ℕ) (made : s.client t = .made task) (stopped : s.stop_ = true) :
    Step s (s.goto t (.threw task))
  | return_ (t : Θ) (task : ℕ) (inserted : s.client t = .inserted task)
    (awake : ∀ w, s.worker w ≠ .waiting) : Step s (s.goto t (.returned task))
  | notify (t : Θ) (task : ℕ) (w : Fin n) (inserted : s.client t = .inserted task)
    (waiting : s.worker w = .waiting) : Step s ((s.goto t (.returned task)).turn w .testing)
  | wait (w : Fin n) (testing : s.worker w = .testing) (open_ : s.stop_ = false)
    (empty : s.tasks_ = []) : Step s (s.turn w .waiting)
  | exit (w : Fin n) (testing : s.worker w = .testing) (stopped : s.stop_ = true)
    (empty : s.tasks_ = []) : Step s (s.turn w .exited)
  | take (w : Fin n) (task : ℕ) (rest : List ℕ) (testing : s.worker w = .testing)
    (front : s.tasks_ = task :: rest) :
    Step s { s.turn w (.running task) with tasks_ := rest, taken := s.taken ++ [task] }
  | wake (w : Fin n) (waiting : s.worker w = .waiting) : Step s (s.turn w .testing)
  | finish (w : Fin n) (task : ℕ) (running : s.worker w = .running task) :
    Step s { s.turn w .testing with executed := s.executed ++ [task] }
  | stop (outside : s.destructor = .outside) :
    Step s { s with stop_ := true, destructor := .stopped }
  | notify_all (stopped : s.destructor = .stopped) :
    Step s { s with worker := fun w => (s.worker w).notified, destructor := .joining 0 }
  | join (k : ℕ) (h : k < n) (joining : s.destructor = .joining k)
    (exited : s.worker ⟨k, h⟩ = .exited) : Step s { s with destructor := .joining (k + 1) }
  | leave (k : ℕ) (all : n ≤ k) (joining : s.destructor = .joining k) :
    Step s { s with destructor := .returned }

omit [DecidableEq Θ] in
theorem takeTask_cases (w : Fin n) :
    (s.stop_ = false ∧ s.tasks_ = [] ∧ s.takeTask w = some (s.turn w .waiting)) ∨
      (s.stop_ = true ∧ s.tasks_ = [] ∧ s.takeTask w = some (s.turn w .exited)) ∨
      ∃ task rest, s.tasks_ = task :: rest ∧ s.takeTask w =
        some { s.turn w (.running task) with tasks_ := rest, taken := s.taken ++ [task] } := by
  cases front : s.tasks_ with
  | nil =>
    cases stopped : s.stop_ with
    | false => exact .inl ⟨rfl, rfl, by simp [takeTask, front, stopped]⟩
    | true => exact .inr (.inl ⟨rfl, rfl, by simp [takeTask, front, stopped]⟩)
  | cons task rest => exact .inr (.inr ⟨task, rest, rfl, by simp [takeTask, front]⟩)

theorem step_of_next {action : Action Θ n} (h : next s action = some u) : Step s u := by
  cases action with
  | call t =>
    simp only [next] at h
    split at h
    · cases h
    · cases h
    · rename_i quiet
      cases h
      exact .call t quiet
  | insert t =>
    simp only [next] at h
    split at h
    · rename_i task made
      cases h
      unfold insertTask
      split_ifs with stopped
      · exact .refuse t task made stopped
      · exact .insert t task made (by simpa using stopped)
    · cases h
  | notify_one t chosen =>
    simp only [next] at h
    split at h
    · rename_i task inserted
      obtain ⟨awake, rfl⟩ := guard_met h
      exact .return_ t task inserted awake
    · rename_i task w inserted
      obtain ⟨waiting, rfl⟩ := guard_met h
      exact .notify t task w inserted waiting
    · cases h
  | take w =>
    obtain ⟨testing, h⟩ := Option.ite_none_right_eq_some.mp h
    rcases takeTask_cases w with ⟨open_, empty, result⟩ | ⟨stopped, empty, result⟩ |
      ⟨task, rest, front, result⟩
    · obtain rfl := Option.some.inj (result.symm.trans h)
      exact .wait w testing open_ empty
    · obtain rfl := Option.some.inj (result.symm.trans h)
      exact .exit w testing stopped empty
    · obtain rfl := Option.some.inj (result.symm.trans h)
      exact .take w task rest testing front
  | wake w =>
    obtain ⟨waiting, rfl⟩ := guard_met h
    exact .wake w waiting
  | finish w =>
    simp only [next] at h
    split at h
    · rename_i task running
      cases h
      exact .finish w task running
    · cases h
  | stop =>
    obtain ⟨outside, rfl⟩ := guard_met h
    exact .stop outside
  | notify_all =>
    obtain ⟨stopped, rfl⟩ := guard_met h
    exact .notify_all stopped
  | join =>
    simp only [next] at h
    split at h
    · rename_i k joining
      split_ifs at h with inside exited
      · cases h
        exact .join k inside joining exited
      · cases h
        exact .leave k (Nat.le_of_not_lt inside) joining
    · cases h

end Steps

section Order
variable {s u : ThreadPool Θ n}

def queue (s : ThreadPool Θ n) : Transfer ℕ := ⟨s.taken, s.tasks_, s.accepted⟩

theorem queue_step (h : Step s u) : (transfer ℕ).Path Any s.queue u.queue := by
  cases h with
  | insert t task => exact path_move s.queue (.submit [task])
  | take w task rest testing front =>
    have delivered := path_move s.queue (.deliver 1)
    change (transfer ℕ).Path Any s.queue ⟨s.taken ++ [task], rest, s.accepted⟩
    simpa [queue, Transfer.move, front] using delivered
  | _ => exact System.Path.refl s.queue

/-- Tasks are taken in the order they were inserted. -/
theorem taken_in_order (h : (threadPool Θ n).Reachable Any s) :
    s.taken ++ s.tasks_ = s.accepted := by
  refine conserved (t := s.queue) (h.simulate queue ?_ ?_)
  · rintro s rfl
    rfl
  · exact fun s action u _ _ hn => queue_step (step_of_next hn)

end Order

section Numbers
variable {s u : ThreadPool Θ n}

structure Numbered (s : ThreadPool Θ n) : Prop where
  nodup : s.accepted.Nodup
  below : ∀ task ∈ s.accepted, task < s.calls
  own : ∀ t, ∀ task ∈ (s.client t).task, task < s.calls
  apart : ∀ t u, ∀ task ∈ (s.client t).task, task ∈ (s.client u).task → t = u
  outcome : ∀ t, ∀ task ∈ (s.client t).task,
    task ∈ s.accepted ↔ (s.client t).accepted = true

theorem goto_task {t : Θ} {p : ClientPc} (task : p.task = (s.client t).task) (u : Θ) :
    ((s.goto t p).client u).task = (s.client u).task := by
  by_cases at_ : u = t
  · rw [at_, goto_self, task]
  · rw [goto_other s at_]

theorem Numbered.goto {t : Θ} {p : ClientPc} (h : Numbered s) (task : p.task = (s.client t).task)
    (same : p.accepted = (s.client t).accepted) : Numbered (s.goto t p) := by
  have outcome : ∀ u, ((s.goto t p).client u).accepted = (s.client u).accepted := by
    intro u
    by_cases at_ : u = t
    · rw [at_, goto_self, same]
    · rw [goto_other s at_]
  refine ⟨h.nodup, h.below, fun u => ?_, fun u v => ?_, fun u => ?_⟩
  · rw [goto_task task]
    exact h.own u
  · rw [goto_task task, goto_task task]
    exact h.apart u v
  · rw [goto_task task, outcome]
    exact h.outcome u

theorem Numbered.call (h : Numbered s) (t : Θ) :
    Numbered { s.goto t (.made s.calls) with calls := s.calls + 1 } := by
  -- the number is new, so no other thread has it
  have new : ∀ u, s.calls ∉ (s.client u).task := fun u mem =>
    Nat.lt_irrefl _ (h.own u s.calls mem)
  have mine : ∀ task ∈ ((s.goto t (.made s.calls)).client t).task, task = s.calls := by
    intro task mem
    rw [goto_self] at mem
    exact (Option.some.inj mem).symm
  refine ⟨h.nodup, fun task mem => (h.below task mem).trans (Nat.lt_succ_self _),
    fun u task mem => ?_, fun u v task first second => ?_, fun u task mem => ?_⟩
  · by_cases at_ : u = t
    · subst at_
      rw [mine task mem]
      exact Nat.lt_succ_self _
    · simp only [goto_other s at_] at mem
      exact (h.own u task mem).trans (Nat.lt_succ_self _)
  · by_cases at_ : u = t <;> by_cases also : v = t
    · exact at_.trans also.symm
    · subst at_
      rw [mine task first] at second
      simp only [goto_other s also] at second
      exact absurd second (new v)
    · subst also
      rw [mine task second] at first
      simp only [goto_other s at_] at first
      exact absurd first (new u)
    · simp only [goto_other s at_, goto_other s also] at first second
      exact h.apart u v task first second
  · by_cases at_ : u = t
    · subst at_
      rw [mine task mem]
      simp only [goto_self, ClientPc.accepted, Bool.false_eq_true, iff_false]
      exact fun mem => Nat.lt_irrefl _ (h.below _ mem)
    · simp only [goto_other s at_] at mem ⊢
      exact h.outcome u task mem

theorem Numbered.insert {t : Θ} {task : ℕ} (h : Numbered s) (made : s.client t = .made task) :
    Numbered { s.goto t (.inserted task) with
      tasks_ := s.tasks_ ++ [task], accepted := s.accepted ++ [task] } := by
  have mine : task ∈ (s.client t).task := by
    rw [made]
    rfl
  have new : task ∉ s.accepted := by
    rw [h.outcome t task mine, made]
    exact Bool.false_ne_true
  have kept : ∀ u, ((s.goto t (.inserted task)).client u).task = (s.client u).task :=
    goto_task (by rw [made]; rfl)
  refine ⟨?_, fun other mem => ?_, fun u other => ?_, fun u v other => ?_, fun u other mem => ?_⟩
  · exact List.nodup_append_comm.mp (List.nodup_cons.mpr ⟨new, h.nodup⟩)
  · rcases List.mem_append.mp mem with before | last
    · exact h.below other before
    · rw [List.mem_singleton.mp last]
      exact h.own t task mine
  · simp only [kept]
    exact h.own u other
  · simp only [kept]
    exact h.apart u v other
  · simp only [kept] at mem
    by_cases at_ : u = t
    · subst at_
      rw [Option.mem_unique mem mine]
      simp [ClientPc.accepted]
    · have different : other ≠ task := by
        rintro rfl
        exact at_ (h.apart u t other mem mine)
      simp only [goto_other s at_, List.mem_append, List.mem_singleton, different, or_false]
      exact h.outcome u other mem

theorem Numbered.step (h : Numbered s) (hs : Step s u) : Numbered u := by
  cases hs with
  | call t => exact h.call t
  | insert t task made => exact h.insert made
  | refuse t task made =>
    exact h.goto (by rw [made]; rfl) (by rw [made]; rfl)
  | return_ t task inserted =>
    exact h.goto (by rw [inserted]; rfl) (by rw [inserted]; rfl)
  | notify t task w inserted =>
    have moved : Numbered (s.goto t (.returned task)) :=
      h.goto (by rw [inserted]; rfl) (by rw [inserted]; rfl)
    exact { moved with }
  | _ => exact { h with }

theorem numbered (h : (threadPool Θ n).Reachable Any s) : Numbered s := by
  refine h.invariant ?_ fun s action u hs _ hn => hs.step (step_of_next hn)
  rintro s rfl
  exact ⟨.nil, by simp [construct], by simp [construct, ClientPc.task],
    by simp [construct, ClientPc.task], by simp [construct, ClientPc.task]⟩

end Numbers

section Holders
variable {s u : ThreadPool Θ n}

omit [DecidableEq Θ] in
theorem sum_turn {M : Type*} [AddCommMonoid M] (f : WorkerPc → M) (s : ThreadPool Θ n)
    (w : Fin n) (p : WorkerPc) :
    ∑ v, f ((s.turn w p).worker v) + f (s.worker w) = ∑ v, f (s.worker v) + f p :=
  PendingWork.sum_update f s.worker w p

def Held (s : ThreadPool Θ n) : Prop :=
  (s.executed : Multiset ℕ) + ∑ w, (s.worker w).held = s.taken

omit [DecidableEq Θ] in
theorem Held.turn {w : Fin n} {p : WorkerPc} (h : Held s) (before : (s.worker w).held = 0)
    (after_ : p.held = 0) : Held (s.turn w p) := by
  have moved := sum_turn WorkerPc.held s w p
  rw [before, after_, add_zero, add_zero] at moved
  rw [Held, moved]
  exact h

theorem Held.step (h : Held s) (hs : Step s u) : Held u := by
  cases hs with
  | notify t task w inserted waiting =>
    have moved : Held (s.turn w .testing) := h.turn (by rw [waiting]; rfl) rfl
    exact moved
  | wait w testing => exact h.turn (by rw [testing]; rfl) rfl
  | exit w testing => exact h.turn (by rw [testing]; rfl) rfl
  | wake w waiting => exact h.turn (by rw [waiting]; rfl) rfl
  | take w task rest testing =>
    have moved := sum_turn WorkerPc.held s w (.running task)
    rw [testing, WorkerPc.held, add_zero] at moved
    change ((s.executed : Multiset ℕ) + ∑ v, ((s.turn w (.running task)).worker v).held) =
      ((s.taken ++ [task] : List ℕ) : Multiset ℕ)
    rw [moved, ← Multiset.coe_add, ← h, add_assoc]
    rfl
  | finish w task running =>
    have moved := sum_turn WorkerPc.held s w .testing
    rw [running, WorkerPc.held, WorkerPc.held, add_zero] at moved
    change ((s.executed ++ [task] : List ℕ) : Multiset ℕ) +
      ∑ v, ((s.turn w .testing).worker v).held = s.taken
    rw [← h, ← moved, ← Multiset.coe_add, add_assoc, add_comm (Finset.sum _ _)]
    rfl
  | notify_all stopped =>
    simpa only [Held, notified_held] using h
  | _ => exact h

theorem held (h : (threadPool Θ n).Reachable Any s) : Held s := by
  refine h.invariant ?_ fun s action u hs _ hn => hs.step (step_of_next hn)
  rintro s rfl
  simp [Held, construct, WorkerPc.held]

end Holders

section Shutdown
variable {s u : ThreadPool Θ n}

structure Closing (s : ThreadPool Θ n) : Prop where
  stopped : s.destructor ≠ .outside → s.stop_ = true
  exited : ∀ w, s.worker w = .exited → s.stop_ = true ∧ s.tasks_ = []
  woken : ∀ k, s.destructor = .joining k → ∀ w, s.worker w ≠ .waiting
  joined : ∀ k, s.destructor = .joining k → ∀ w : Fin n, w.val < k → s.worker w = .exited
  returned : s.destructor = .returned → ∀ w, s.worker w = .exited

omit [DecidableEq Θ] in
theorem Closing.turn {w : Fin n} {p : WorkerPc} (h : Closing s) (live : s.worker w ≠ .exited)
    (leaves : p = .exited → s.stop_ = true ∧ s.tasks_ = [])
    (waits : p = .waiting → s.stop_ = false) : Closing (s.turn w p) := by
  refine ⟨h.stopped, fun v hv => ?_, fun k joining v hv => ?_, fun k joining v below => ?_,
    fun returned => absurd (h.returned returned w) live⟩
  · by_cases same : v = w
    · subst same
      rw [turn_self] at hv
      exact leaves hv
    · rw [turn_other s same] at hv
      exact h.exited v hv
  · by_cases same : v = w
    · subst same
      rw [turn_self] at hv
      have stopped : s.stop_ = true := h.stopped (by rw [show s.destructor = _ from joining]; simp)
      rw [waits hv] at stopped
      cases stopped
    · rw [turn_other s same] at hv
      exact h.woken k joining v hv
  · have left := h.joined k joining v below
    rw [turn_other s (by rintro rfl; exact live left)]
    exact left

theorem Closing.step (h : Closing s) (hs : Step s u) : Closing u := by
  cases hs with
  | insert t task made open_ =>
    refine { h with exited := fun w left => ?_ }
    have stopped : s.stop_ = true := (h.exited w left).1
    rw [open_] at stopped
    cases stopped
  | notify t task w inserted waiting =>
    have moved : Closing (s.turn w .testing) := h.turn (by simp [waiting]) (by simp) (by simp)
    exact { moved with }
  | wait w testing open_ => exact h.turn (by simp [testing]) (by simp) fun _ => open_
  | exit w testing stopped empty =>
    exact h.turn (by simp [testing]) (fun _ => ⟨stopped, empty⟩) (by simp)
  | take w task rest testing front =>
    have moved : Closing (s.turn w (.running task)) :=
      h.turn (by simp [testing]) (by simp) (by simp)
    refine { moved with exited := fun v left => ?_ }
    have empty : s.tasks_ = [] := (moved.exited v left).2
    rw [front] at empty
    cases empty
  | wake w waiting => exact h.turn (by simp [waiting]) (by simp) (by simp)
  | finish w task running =>
    have moved : Closing (s.turn w .testing) := h.turn (by simp [running]) (by simp) (by simp)
    exact { moved with }
  | stop outside =>
    exact ⟨fun _ => rfl, fun w left => ⟨rfl, (h.exited w left).2⟩, by simp, by simp, by simp⟩
  | notify_all stopped =>
    refine ⟨fun _ => h.stopped (by simp [stopped]),
      fun w left => h.exited w (notified_exited.mp left),
      fun _ _ w => notified_awake (s.worker w), fun k joining w below => ?_, by simp⟩
    cases joining
    cases below
  | join k inside joining exited =>
    refine ⟨fun _ => h.stopped (by simp [joining]), h.exited, fun _ _ => h.woken k joining,
      fun i next w below => ?_, by simp⟩
    cases next
    rcases Nat.lt_succ_iff_lt_or_eq.mp below with before | rfl
    · exact h.joined k joining w before
    · exact exited
  | leave k all joining =>
    exact ⟨fun _ => h.stopped (by simp [joining]), h.exited, by simp, by simp,
      fun _ w => h.joined k joining w (w.isLt.trans_le all)⟩
  | _ => exact { h with }

theorem closing (h : (threadPool Θ n).Reachable Any s) : Closing s := by
  refine h.invariant ?_ fun s action u hs _ hn => hs.step (step_of_next hn)
  rintro s rfl
  exact ⟨by simp [construct], by simp [construct], by simp [construct], by simp [construct],
    by simp [construct]⟩

theorem stopped_step (stopped : s.stop_ = true) (hs : Step s u) :
    u.stop_ = true ∧ u.accepted = s.accepted := by
  cases hs with
  | insert t task made open_ =>
    rw [open_] at stopped
    cases stopped
  | stop => exact ⟨rfl, rfl⟩
  | _ => exact ⟨stopped, rfl⟩

end Shutdown

section Results
variable {s : ThreadPool Θ n}

/-- What the pool keeps in every state: the tasks are taken in the order of their insertion, and
what was taken has been executed or is in the hands of a worker. A worker never takes from an
empty queue, and a call whose turn comes after the store to `stop_` throws and changes nothing
else. -/
structure RunsAll (s : ThreadPool Θ n) : Prop where
  distinct : s.accepted.Nodup
  outcome : ∀ t, ∀ task ∈ (s.client t).task,
    task ∈ s.accepted ↔ (s.client t).accepted = true
  ordered : s.taken ++ s.tasks_ = s.accepted
  taken_once : s.taken.Nodup
  executed_once : s.executed.Nodup
  held : (s.executed : Multiset ℕ) + ∑ w, (s.worker w).held = s.taken
  takes : ∀ w, s.worker w = .testing → (next s (.take w)).isSome
  refused : ∀ t task, s.client t = .made task → s.stop_ = true →
    next s (.insert t) = some (s.goto t (.threw task))
  closed : s.stop_ = true → ∀ u, (threadPool Θ n).Path Any s u →
    u.stop_ = true ∧ u.accepted = s.accepted
  destroyed : s.destructor = .returned → s.tasks_ = [] ∧ s.executed.Perm s.accepted

/-- With at least one worker, every accepted task is executed exactly once before the
destructor returns. -/
theorem tasks_run_once (some_ : 0 < n) (h : (threadPool Θ n).Reachable Any s) : RunsAll s := by
  have ordered := taken_in_order h
  have distinct := (numbered h).nodup
  have accounts : (s.executed : Multiset ℕ) + ∑ w, (s.worker w).held = s.taken := held h
  have taken_once : s.taken.Nodup := by
    rw [← ordered] at distinct
    exact distinct.of_append_left
  refine ⟨distinct, (numbered h).outcome, ordered, taken_once, ?_, accounts, fun w testing => ?_,
    fun t task made stopped => ?_, fun stopped u path => ?_, fun returned => ?_⟩
  · have part : (s.executed : Multiset ℕ) ≤ s.taken := accounts ▸ Multiset.le_add_right _ _
    exact Multiset.coe_nodup.mp (Multiset.nodup_of_le part (Multiset.coe_nodup.mpr taken_once))
  · rw [next, if_pos testing]
    rcases takeTask_cases w with ⟨-, -, result⟩ | ⟨-, -, result⟩ | ⟨task, rest, -, result⟩ <;>
      rw [result] <;> rfl
  · simp only [next, made, insertTask, stopped, if_true]
  · refine path.stable (P := fun u => u.stop_ = true ∧ u.accepted = s.accepted) ?_ ⟨stopped, rfl⟩
    rintro u action v ⟨still, same⟩ - hn
    obtain ⟨stays, kept⟩ := stopped_step still (step_of_next hn)
    exact ⟨stays, kept.trans same⟩
  · have gone := (closing h).returned returned
    have empty : s.tasks_ = [] := ((closing h).exited ⟨0, some_⟩ (gone ⟨0, some_⟩)).2
    have idle : ∑ w, (s.worker w).held = 0 :=
      Finset.sum_eq_zero fun w _ => by rw [gone w, WorkerPc.held]
    rw [empty, List.append_nil] at ordered
    rw [idle, add_zero, ordered] at accounts
    exact ⟨empty, Multiset.coe_eq_coe.mp accounts⟩

/-- Two workers: one waits and is notified, the other is in the first task when the destructor
comes, and a late call throws. -/
theorem tasks_run_once_two : ∃ s : ThreadPool (Fin 2) 2,
    (threadPool (Fin 2) 2).Reachable Any s ∧
      (s.destructor, s.client 1, s.executed) = (.returned, .threw 2, [1, 0]) ∧ RunsAll s := by
  have run : ((threadPool (Fin 2) 2).execute Any construct
      [.take 0, .wake 0, .take 0, .call 0, .insert 0, .take 1, .call 1, .insert 1,
        .notify_one 0 (some 0), .notify_one 1 none, .call 1, .stop, .insert 1, .notify_all,
        .take 0, .finish 0, .take 0, .join, .finish 1, .take 1, .join, .join]).map
      (fun s => (s.destructor, s.client 1, s.executed)) =
      some (.returned, .threw 2, [1, 0]) := by decide +kernel
  obtain ⟨s, reached, ends⟩ := System.Reachable.of_replay rfl run
  exact ⟨s, reached, ends, tasks_run_once (by decide) reached⟩

end Results

section Wakeups
variable {s u : ThreadPool Θ n}

/-- While a worker is asleep, every queued task has an awake worker or a notification of its
own that will come for it. -/
def Attended (s : ThreadPool Θ n) : Prop :=
  (∃ w, s.worker w = .waiting) → ∃ pending : Finset Θ,
    (∀ t ∈ pending, ∃ task, s.client t = .inserted task) ∧
    s.tasks_.length ≤ ∑ w, (s.worker w).active + pending.card

omit [DecidableEq Θ] in
theorem asleep_before {w : Fin n} {p : WorkerPc} (up : p ≠ .waiting)
    (asleep : ∃ v, (s.turn w p).worker v = .waiting) : ∃ v, s.worker v = .waiting := by
  obtain ⟨v, hv⟩ := asleep
  by_cases same : v = w
  · subst same
    rw [turn_self] at hv
    exact absurd hv up
  · rw [turn_other s same] at hv
    exact ⟨v, hv⟩

theorem Attended.goto {t : Θ} {p : ClientPc} (h : Attended s)
    (quiet : ∀ task, s.client t ≠ .inserted task) : Attended (s.goto t p) := by
  intro asleep
  obtain ⟨pending, notifying, enough⟩ := h asleep
  refine ⟨pending, fun v hv => ?_, enough⟩
  obtain ⟨task, inserted⟩ := notifying v hv
  have other : v ≠ t := by
    rintro rfl
    exact quiet task inserted
  exact ⟨task, (goto_other s other p).trans inserted⟩

theorem Attended.push {t : Θ} {task : ℕ} (h : Attended s) (made : s.client t = .made task) :
    Attended { s.goto t (.inserted task) with
      tasks_ := s.tasks_ ++ [task], accepted := s.accepted ++ [task] } := by
  intro asleep
  obtain ⟨pending, notifying, enough⟩ := h asleep
  have new : t ∉ pending := by
    intro mem
    obtain ⟨other, inserted⟩ := notifying t mem
    cases made.symm.trans inserted
  refine ⟨insert t pending, fun v hv => ?_, ?_⟩
  · rcases Finset.mem_insert.mp hv with rfl | old
    · exact ⟨task, goto_self s v _⟩
    · have other : v ≠ t := by
        rintro rfl
        exact new old
      obtain ⟨before, inserted⟩ := notifying v old
      exact ⟨before, (goto_other s other _).trans inserted⟩
  · rw [Finset.card_insert_of_notMem new, List.length_append, List.length_singleton]
    exact Nat.succ_le_succ enough

theorem Attended.notify {t : Θ} {task : ℕ} {w : Fin n} (h : Attended s)
    (waiting : s.worker w = .waiting) :
    Attended ((s.goto t (.returned task)).turn w .testing) := by
  intro _
  obtain ⟨pending, notifying, enough⟩ := h ⟨w, waiting⟩
  refine ⟨pending.erase t, fun v hv => ?_, ?_⟩
  · obtain ⟨before, inserted⟩ := notifying v (Finset.mem_of_mem_erase hv)
    exact ⟨before, (goto_other s (Finset.ne_of_mem_erase hv) _).trans inserted⟩
  · have moved := sum_turn WorkerPc.active s w .testing
    rw [waiting, WorkerPc.active, WorkerPc.active, add_zero] at moved
    have spent : pending.card - 1 ≤ (pending.erase t).card := Finset.pred_card_le_card_erase
    change s.tasks_.length ≤ ∑ v, ((s.turn w .testing).worker v).active + (pending.erase t).card
    omega

omit [DecidableEq Θ] in
theorem Attended.turn {w : Fin n} {p : WorkerPc} (h : Attended s) (up : p ≠ .waiting)
    (active : (s.worker w).active ≤ p.active) : Attended (s.turn w p) := by
  intro asleep
  obtain ⟨pending, notifying, enough⟩ := h (asleep_before up asleep)
  have moved := sum_turn WorkerPc.active s w p
  refine ⟨pending, notifying, ?_⟩
  change s.tasks_.length ≤ _
  omega

omit [DecidableEq Θ] in
theorem attended_empty (empty : s.tasks_ = []) : Attended s := by
  intro _
  refine ⟨∅, fun t mem => absurd mem (Finset.notMem_empty t), ?_⟩
  rw [empty]
  exact Nat.zero_le _

omit [DecidableEq Θ] in
theorem attended_awake (awake : ∀ w, s.worker w ≠ .waiting) : Attended s :=
  fun ⟨w, asleep⟩ => absurd asleep (awake w)

theorem Attended.step (h : Attended s) (hs : Step s u) : Attended u := by
  cases hs with
  | call t quiet =>
    have moved : Attended (s.goto t (.made s.calls)) := h.goto quiet
    exact moved
  | insert t task made => exact h.push made
  | refuse t task made => exact h.goto fun other inserted => by cases made.symm.trans inserted
  | return_ t task inserted awake => exact attended_awake awake
  | notify t task w inserted waiting => exact h.notify waiting
  | wait w testing open_ empty => exact attended_empty empty
  | exit w testing stopped empty => exact attended_empty empty
  | take w task rest testing front =>
    have moved : Attended (s.turn w (.running task)) := h.turn (by simp) (by rw [testing]; rfl)
    intro asleep
    obtain ⟨pending, notifying, enough⟩ := moved asleep
    refine ⟨pending, notifying, le_trans ?_ enough⟩
    change rest.length ≤ s.tasks_.length
    rw [front]
    exact Nat.le_succ _
  | wake w waiting => exact h.turn (by simp) (by rw [waiting]; exact Nat.zero_le _)
  | finish w task running =>
    have moved : Attended (s.turn w .testing) := h.turn (by simp) (by rw [running]; rfl)
    exact moved
  | notify_all stopped => exact attended_awake fun w => notified_awake (s.worker w)
  | _ => exact h

theorem attended (h : (threadPool Θ n).Reachable Any s) : Attended s := by
  refine h.invariant ?_ fun s action u hs _ hn => hs.step (step_of_next hn)
  rintro s rfl
  exact attended_empty rfl

theorem stopped_called (h : (threadPool Θ n).Reachable Any s) :
    s.stop_ = true → s.destructor ≠ .outside := by
  refine h.invariant (P := fun s => s.stop_ = true → s.destructor ≠ .outside) ?_
    fun s action u hs _ hn => ?_
  · rintro s rfl
    exact fun stopped => absurd stopped Bool.false_ne_true
  · cases step_of_next hn with
    | stop => simp
    | notify_all => simp
    | join => simp
    | leave => simp
    | _ => exact hs

/-- A pool in which nothing happens any more, with work or the end of the pool to wait for:
the workers that are left sleep, and no notification is on its way. -/
structure Stuck (s : ThreadPool Θ n) : Prop where
  live : ∃ w, s.worker w ≠ .exited
  asleep : ∀ w, s.worker w ≠ .exited → s.worker w = .waiting
  due : s.tasks_ ≠ [] ∨ s.stop_ = true
  notified : ∀ t task, s.client t ≠ .inserted task
  stopping : s.destructor ≠ .stopped

/-- No notification is lost. -/
theorem no_lost_notification (h : (threadPool Θ n).Reachable Any s) : ¬Stuck s := by
  rintro ⟨⟨w, live⟩, asleep, due, notified, stopping⟩
  have idle : ∑ v, (s.worker v).active = 0 := by
    refine Finset.sum_eq_zero fun v _ => ?_
    by_cases left : s.worker v = .exited
    · rw [left, WorkerPc.active]
    · rw [asleep v left, WorkerPc.active]
  obtain ⟨pending, notifying, enough⟩ := attended h ⟨w, asleep w live⟩
  have none : pending = ∅ := by
    refine Finset.eq_empty_of_forall_notMem fun t mem => ?_
    obtain ⟨task, inserted⟩ := notifying t mem
    exact notified t task inserted
  rw [idle, none, Finset.card_empty] at enough
  have empty : s.tasks_ = [] := List.eq_nil_of_length_eq_zero (Nat.le_zero.mp enough)
  have stopped : s.stop_ = true := due.resolve_left (not_not.mpr empty)
  cases at_ : s.destructor with
  | outside => exact stopped_called h stopped at_
  | stopped => exact stopping at_
  | joining k => exact (closing h).woken k at_ w (asleep w live)
  | returned => exact live ((closing h).returned at_ w)

/-- One worker sleeps and the other runs the first of two tasks; both notifications are still
to come. -/
theorem no_lost_notification_two : ∃ s : ThreadPool (Fin 2) 2,
    (threadPool (Fin 2) 2).Reachable Any s ∧
      (s.worker 0, s.worker 1, s.tasks_) = (.waiting, .running 0, [1]) ∧ ¬Stuck s := by
  have run : ((threadPool (Fin 2) 2).execute Any construct
      [.take 0, .call 0, .insert 0, .take 1, .call 1, .insert 1]).map
      (fun s => (s.worker 0, s.worker 1, s.tasks_)) =
      some (.waiting, .running 0, [1]) := by decide +kernel
  obtain ⟨s, reached, ends⟩ := System.Reachable.of_replay rfl run
  exact ⟨s, reached, ends, no_lost_notification reached⟩

end Wakeups

section Progress
variable {s : ThreadPool Θ n}

def Leaving : ThreadPool Θ n → Action Θ n → Prop
  | _, .take _ => True
  | _, .finish _ => True
  | _, .stop => True
  | _, .notify_all => True
  | _, .join => True
  | _, _ => False

def work (s : ThreadPool Θ n) : ℕ := 2 * s.tasks_.length + ∑ w, (s.worker w).rank

def Awake (s : ThreadPool Θ n) : Prop := s.stop_ = true ∧ ∀ w, s.worker w ≠ .waiting

omit [DecidableEq Θ] in
theorem Awake.turn {w : Fin n} {p : WorkerPc} (h : Awake s) (up : p ≠ .waiting) :
    Awake (s.turn w p) := by
  refine ⟨h.1, fun v => ?_⟩
  by_cases same : v = w
  · subst same
    rw [turn_self]
    exact up
  · rw [turn_other s same]
    exact h.2 v

theorem worker_step {w : Fin n} (h : Awake s) (live : s.worker w ≠ .exited) :
    ∃ action u, Leaving s action ∧ next s action = some u ∧ Awake u ∧ u.work < s.work ∧
      u.destructor = s.destructor := by
  cases at_ : s.worker w with
  | waiting => exact absurd at_ (h.2 w)
  | exited => exact absurd at_ live
  | testing =>
    rcases takeTask_cases w with ⟨open_, -, -⟩ | ⟨-, -, result⟩ | ⟨task, rest, front, result⟩
    · cases open_.symm.trans h.1
    · have moved := sum_turn WorkerPc.rank s w .exited
      rw [at_, WorkerPc.rank, WorkerPc.rank] at moved
      refine ⟨.take w, _, trivial, (if_pos at_).trans result, h.turn (by simp), ?_, rfl⟩
      change 2 * s.tasks_.length + ∑ v, ((s.turn w .exited).worker v).rank < s.work
      rw [work]
      omega
    · have moved := sum_turn WorkerPc.rank s w (.running task)
      rw [at_, WorkerPc.rank, WorkerPc.rank] at moved
      have awake : Awake (s.turn w (.running task)) := h.turn (by simp)
      refine ⟨.take w, _, trivial, (if_pos at_).trans result, awake, ?_, rfl⟩
      change 2 * rest.length + ∑ v, ((s.turn w (.running task)).worker v).rank < s.work
      rw [work, front, List.length_cons]
      omega
  | running task =>
    have moved := sum_turn WorkerPc.rank s w .testing
    rw [at_, WorkerPc.rank, WorkerPc.rank] at moved
    have awake : Awake (s.turn w .testing) := h.turn (by simp)
    refine ⟨.finish w, { s.turn w .testing with executed := s.executed ++ [task] }, trivial, ?_,
      awake, ?_, rfl⟩
    · simp only [next, at_]
    · change 2 * s.tasks_.length + ∑ v, ((s.turn w .testing).worker v).rank < s.work
      rw [work]
      omega

/-- Awake workers empty the queue and leave. -/
theorem workers_leave (h : Awake s) : ∃ u, (threadPool Θ n).Path Leaving s u ∧
    (∀ w, u.worker w = .exited) ∧ u.destructor = s.destructor := by
  induction left : s.work using Nat.strong_induction_on generalizing s with
  | _ left_ ih =>
    by_cases all : ∀ w, s.worker w = .exited
    · exact ⟨s, System.Path.refl s, all, rfl⟩
    · obtain ⟨w, live⟩ := not_forall.mp all
      obtain ⟨action, u, quiet, taken, awake, less, same⟩ := worker_step h live
      obtain ⟨v, path, gone, still⟩ := ih u.work (left ▸ less) awake rfl
      exact ⟨v, (System.Path.single quiet taken).trans path, gone, still.trans same⟩

theorem joins_end {k : ℕ} (gone : ∀ w, s.worker w = .exited) (joining : s.destructor = .joining k) :
    ∃ u, (threadPool Θ n).Path Leaving s u ∧ u.destructor = .returned := by
  induction rest : n - k generalizing s k with
  | zero =>
    have last : next s .join = some { s with destructor := .returned } := by
      simp only [next, joining, dif_neg (by omega : ¬k < n)]
    exact ⟨_, System.Path.single (a := .join) trivial last, rfl⟩
  | succ rest_ ih =>
    have inside : k < n := by omega
    have joined : next s .join = some { s with destructor := .joining (k + 1) } := by
      simp only [next, joining, dif_pos inside, gone, if_true]
    obtain ⟨u, path, ends⟩ :=
      ih (s := { s with destructor := .joining (k + 1) }) gone rfl (by omega)
    exact ⟨u, (System.Path.single (a := .join) trivial joined).trans path, ends⟩

def Working : ThreadPool Θ n → Action Θ n → Prop
  | _, .notify_one _ _ => True
  | _, .take _ => True
  | _, .finish _ => True
  | _, _ => False

def delay : WorkerPc → ℕ
  | .testing => 1
  | .waiting => 2
  | .running _ => 3
  | .exited => 0

def backlog (s : ThreadPool Θ n) : ℕ := 3 * s.tasks_.length + ∑ w, delay (s.worker w)

theorem backlog_step (some_ : 0 < n) (h : (threadPool Θ n).Reachable Any s)
    (busy : s.tasks_ ≠ [] ∨ ∃ w task, s.worker w = .running task) :
    ∃ action u, Working s action ∧ next s action = some u ∧ u.backlog < s.backlog ∧
      u.accepted = s.accepted := by
  by_cases runs : ∃ w task, s.worker w = .running task
  · obtain ⟨w, task, at_⟩ := runs
    have moved := sum_turn delay s w .testing
    rw [at_, delay, delay] at moved
    refine ⟨.finish w, { s.turn w .testing with executed := s.executed ++ [task] }, trivial, ?_,
      ?_, rfl⟩
    · simp only [next, at_]
    · change 3 * s.tasks_.length + ∑ v, delay ((s.turn w .testing).worker v) < s.backlog
      rw [backlog]
      omega
  have queued : s.tasks_ ≠ [] := busy.resolve_right runs
  by_cases ready : ∃ w, s.worker w = .testing
  · obtain ⟨w, at_⟩ := ready
    rcases takeTask_cases w with ⟨-, empty, -⟩ | ⟨-, empty, -⟩ | ⟨task, rest, front, result⟩
    · exact absurd empty queued
    · exact absurd empty queued
    · have moved := sum_turn delay s w (.running task)
      rw [at_, delay, delay] at moved
      refine ⟨.take w, _, trivial, (if_pos at_).trans result, ?_, rfl⟩
      change 3 * rest.length + ∑ v, delay ((s.turn w (.running task)).worker v) < s.backlog
      rw [backlog, front, List.length_cons]
      omega
  -- everybody sleeps, so somebody is about to notify
  have live : ∀ w, s.worker w ≠ .exited := fun w gone => queued ((closing h).exited w gone).2
  have asleep : ∀ w, s.worker w = .waiting := fun w => by
    cases at_ : s.worker w with
    | waiting => rfl
    | testing => exact absurd ⟨w, at_⟩ ready
    | running task => exact absurd ⟨w, task, at_⟩ runs
    | exited => exact absurd at_ (live w)
  have idle : ∑ v, (s.worker v).active = 0 :=
    Finset.sum_eq_zero fun v _ => by rw [asleep v, WorkerPc.active]
  obtain ⟨pending, notifying, enough⟩ := attended h ⟨⟨0, some_⟩, asleep _⟩
  have waiting := List.length_pos_iff.mpr queued
  obtain ⟨t, mem⟩ := Finset.card_pos.mp (show 0 < pending.card by omega)
  obtain ⟨task, inserted⟩ := notifying t mem
  have moved := sum_turn delay (s.goto t (.returned task)) ⟨0, some_⟩ .testing
  rw [show (s.goto t (.returned task)).worker ⟨0, some_⟩ = .waiting from asleep _,
    delay, delay] at moved
  refine ⟨.notify_one t (some ⟨0, some_⟩), (s.goto t (.returned task)).turn ⟨0, some_⟩ .testing,
    trivial, ?_, ?_, rfl⟩
  · simp only [next, inserted, asleep, if_true]
  · change 3 * s.tasks_.length +
      ∑ v, delay (((s.goto t (.returned task)).turn ⟨0, some_⟩ .testing).worker v) < s.backlog
    have same : ∑ v, delay ((s.goto t (.returned task)).worker v) =
        ∑ v, delay (s.worker v) := rfl
    rw [backlog]
    omega

end Progress

end ThreadPool

end TinyNetwork
