import Mathlib.Logic.Relation
import Mathlib.Tactic.SplitIfs

/-! Guarded labelled transition systems. A system is an executable partial step
function, so the guards a proof uses are the guards a replayed run uses. Runs
carry a side condition `ok` on the steps taken, read in the state before the
step: an invariant, a stability fact or a simulation is proved for the steps
that meet it and then holds along every run made of such steps. -/
namespace Transition

structure System (σ α : Type*) where
  init : σ → Prop
  next : σ → α → Option σ

theorem guard_met {σ : Type*} {c : Prop} [Decidable c] {s t : σ}
    (h : (if c then some s else none) = some t) : c ∧ s = t := by
  obtain ⟨met, same⟩ := Option.ite_none_right_eq_some.mp h
  exact ⟨met, Option.some.inj same⟩

theorem guard_bind {σ τ : Type*} {c : Prop} [Decidable c] {s : σ} {f : σ → Option τ} {t : τ}
    (h : (if c then some s else none).bind f = some t) : f s = some t := by
  obtain ⟨u, taken, h⟩ := Option.bind_eq_some_iff.mp h
  obtain ⟨-, rfl⟩ := guard_met taken
  exact h

def Any {σ α : Type*} : σ → α → Prop := fun _ _ => True

instance {σ α : Type*} (s : σ) (a : α) : Decidable (Any s a) := isTrue trivial

namespace System

variable {σ α τ β : Type*} (S : System σ α) {ok : σ → α → Prop}

/-- `t` is reached from `s` by finitely many enabled steps that all meet `ok`. -/
def Path (ok : σ → α → Prop) : σ → σ → Prop :=
  Relation.ReflTransGen fun s t => ∃ a, ok s a ∧ S.next s a = some t

def Reachable (ok : σ → α → Prop) (s : σ) : Prop :=
  ∃ s₀, S.init s₀ ∧ S.Path ok s₀ s

variable {S}

theorem Path.refl (s : σ) : S.Path ok s s := Relation.ReflTransGen.refl

theorem Path.tail {s t u : σ} {a : α} (h : S.Path ok s t) (ha : ok t a)
    (hn : S.next t a = some u) : S.Path ok s u :=
  Relation.ReflTransGen.tail h ⟨a, ha, hn⟩

theorem Path.single {s t : σ} {a : α} (ha : ok s a) (hn : S.next s a = some t) :
    S.Path ok s t :=
  (Path.refl s).tail ha hn

theorem Path.trans {s t u : σ} (h : S.Path ok s t) (k : S.Path ok t u) : S.Path ok s u :=
  Relation.ReflTransGen.trans h k

theorem Path.mono {ok' : σ → α → Prop} {s t : σ} (h : S.Path ok s t)
    (weaker : ∀ s a, ok s a → ok' s a) : S.Path ok' s t := by
  induction h with
  | refl => exact Path.refl s
  | tail _ taken ih =>
    obtain ⟨a, ha, hn⟩ := taken
    exact ih.tail (weaker _ a ha) hn

theorem Reachable.initial {s : σ} (h : S.init s) : S.Reachable ok s := ⟨s, h, Path.refl s⟩

theorem Reachable.path {s t : σ} (h : S.Reachable ok s) (k : S.Path ok s t) :
    S.Reachable ok t := by
  obtain ⟨s₀, h₀, run⟩ := h
  exact ⟨s₀, h₀, run.trans k⟩

/-- What every admitted step preserves is preserved by every admitted run. -/
theorem Path.stable {P : σ → Prop}
    (step : ∀ s a t, P s → ok s a → S.next s a = some t → P t)
    {s t : σ} (h : S.Path ok s t) (hs : P s) : P t := by
  induction h with
  | refl => exact hs
  | tail _ taken ih =>
    obtain ⟨a, ha, hn⟩ := taken
    exact step _ a _ ih ha hn

/-- What holds initially and is preserved by every admitted step holds in every
state of every admitted run. -/
theorem Reachable.invariant {P : σ → Prop} (base : ∀ s, S.init s → P s)
    (step : ∀ s a t, P s → ok s a → S.next s a = some t → P t)
    {s : σ} (h : S.Reachable ok s) : P s := by
  obtain ⟨s₀, h₀, run⟩ := h
  exact run.stable step (base s₀ h₀)

/-- The invariant rule with an invariant `I` already known: a step may use it
in the state it leaves. -/
theorem Reachable.invariant_under {I P : σ → Prop}
    (known : ∀ s, S.Reachable ok s → I s) (base : ∀ s, S.init s → P s)
    (step : ∀ s a t, I s → P s → ok s a → S.next s a = some t → P t)
    {s : σ} (h : S.Reachable ok s) : P s := by
  obtain ⟨s₀, h₀, run⟩ := h
  have both : S.Reachable ok s ∧ P s :=
    run.stable (P := fun s => S.Reachable ok s ∧ P s)
      (fun s a t hs ha hn =>
        ⟨hs.1.path (Path.single ha hn), step s a t (known s hs.1) hs.2 ha hn⟩)
      ⟨Reachable.initial h₀, base s₀ h₀⟩
  exact both.2

/-- Forward simulation: when the image of every admitted step is an admitted run
of the abstract system, the image of a reachable state is reachable there. -/
theorem Reachable.simulate {T : System τ β} {ok' : τ → β → Prop} (f : σ → τ)
    (base : ∀ s, S.init s → T.init (f s))
    (step : ∀ s a t, S.Reachable ok s → ok s a → S.next s a = some t →
      T.Path ok' (f s) (f t))
    {s : σ} (h : S.Reachable ok s) : T.Reachable ok' (f s) :=
  h.invariant_under (I := S.Reachable ok) (P := fun s => T.Reachable ok' (f s))
    (fun _ hs => hs) (fun s hs => Reachable.initial (base s hs))
    (fun s a t hs image ha hn => image.path (step s a t hs ha hn))

variable (S) in
/-- Replay a list of actions, checking `ok` before each; `none` when one of them
is refused or not enabled. -/
def execute (ok : σ → α → Prop) [∀ s a, Decidable (ok s a)] : σ → List α → Option σ
  | s, [] => some s
  | s, a :: rest => if ok s a then (S.next s a).bind fun t => execute ok t rest else none

theorem Path.of_execute [∀ s a, Decidable (ok s a)] {s t : σ} {actions : List α}
    (h : S.execute ok s actions = some t) : S.Path ok s t := by
  induction actions generalizing s with
  | nil =>
    simp only [execute, Option.some.injEq] at h
    exact h ▸ Path.refl s
  | cons a rest ih =>
    simp only [execute] at h
    split_ifs at h with ha
    obtain ⟨u, hu, hrest⟩ := Option.bind_eq_some_iff.mp h
    exact (Path.single ha hu).trans (ih hrest)

theorem Reachable.of_replay [∀ s a, Decidable (ok s a)] {γ : Type*} {s : σ} {actions : List α}
    {f : σ → γ} {x : γ} (h₀ : S.init s) (h : (S.execute ok s actions).map f = some x) :
    ∃ t, S.Reachable ok t ∧ f t = x := by
  obtain ⟨t, run, ends⟩ := Option.map_eq_some_iff.mp h
  exact ⟨t, (Reachable.initial h₀).path (Path.of_execute run), ends⟩

end System

end Transition
