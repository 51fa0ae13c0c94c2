import Mathlib.Data.List.Basic

/-!
# Machines — what holds along every run

A machine is a step function: an action is either not enabled in a state or gives one next
state. `Reaches` closes a start state under the steps whose state and action meet `ok`, so a
restriction on a run (which calls it makes, what holds before a step) is a predicate on the
state before the step and the action, and never on what the step computes.

`Reaches.invariant` is the one induction; every safety statement about a whole run is an
instance of it. `runIf` executes a list of actions and checks each, so that a concrete run can
be evaluated.

`recorded` keeps a history beside a machine: what happened, for statements that speak of more
than one step. The machine never reads it.
-/

namespace Xv6.Lib

variable {σ α : Type}

/-- The states reached from `s₀` by steps that meet `ok`. -/
inductive Reaches (step : σ → α → Option σ) (ok : σ → α → Prop) (s₀ : σ) : σ → Prop
  | refl : Reaches step ok s₀ s₀
  | tail {s s' : σ} {a : α} : Reaches step ok s₀ s → ok s a → step s a = some s' →
      Reaches step ok s₀ s'

variable {step : σ → α → Option σ} {ok : σ → α → Prop}

/-- What holds at the start and is kept by every step holds in every state reached. -/
theorem Reaches.invariant {motive : σ → Prop} {s₀ s : σ} (h : Reaches step ok s₀ s)
    (hinit : motive s₀) (hstep : ∀ s a s', motive s → ok s a → step s a = some s' → motive s') :
    motive s := by
  induction h with
  | refl => exact hinit
  | tail _ hok hs ih => exact hstep _ _ _ ih hok hs

/-- A run under a stronger restriction is a run under a weaker one. -/
theorem Reaches.mono {ok' : σ → α → Prop} {s₀ s : σ} (h : Reaches step ok s₀ s)
    (himp : ∀ s a, ok s a → ok' s a) : Reaches step ok' s₀ s := by
  induction h with
  | refl => exact .refl
  | tail _ hok hs ih => exact .tail ih (himp _ _ hok) hs

theorem Reaches.trans {s₀ s₁ s₂ : σ} (h : Reaches step ok s₀ s₁) (h' : Reaches step ok s₁ s₂) :
    Reaches step ok s₀ s₂ := by
  induction h' with
  | refl => exact h
  | tail _ hok hs ih => exact .tail ih hok hs

/-- The first step of a run. -/
theorem Reaches.cases_head {s₀ s : σ} (h : Reaches step ok s₀ s) :
    s₀ = s ∨ ∃ a s₁, ok s₀ a ∧ step s₀ a = some s₁ ∧ Reaches step ok s₁ s := by
  induction h with
  | refl => exact .inl rfl
  | tail _ hok hs ih =>
    rcases ih with rfl | ⟨a, s₁, hok₁, hs₁, hrest⟩
    · exact .inr ⟨_, _, hok, hs, .refl⟩
    · exact .inr ⟨a, s₁, hok₁, hs₁, .tail hrest hok hs⟩

/-- Runs a list of actions, each admitted in the state it is taken in. -/
def runIf (step : σ → α → Option σ) (ok : σ → α → Prop) [∀ s a, Decidable (ok s a)] :
    σ → List α → Option σ
  | s, [] => some s
  | s, a :: as => if ok s a then (step s a).bind fun s' => runIf step ok s' as else none

/-- What `runIf` executes is a run. -/
theorem reaches_of_runIf [∀ s a, Decidable (ok s a)] (as : List α) : ∀ {s₀ s : σ},
    runIf step ok s₀ as = some s → Reaches step ok s₀ s := by
  induction as with
  | nil =>
    intro s₀ s h
    cases h
    exact .refl
  | cons a as ih =>
    intro s₀ s h
    simp only [runIf, Option.ite_none_right_eq_some] at h
    obtain ⟨hok, h⟩ := h
    obtain ⟨s₁, hs₁, hrest⟩ := Option.bind_eq_some_iff.mp h
    exact (Reaches.tail .refl hok hs₁).trans (ih hrest)

/-- A state that a concrete run reaches, with what can be checked of it. -/
theorem exists_reaches [∀ s a, Decidable (ok s a)] {s₀ : σ} (as : List α) (P : σ → Prop)
    [DecidablePred P] (h : (runIf step ok s₀ as).any fun s => P s) :
    ∃ s, Reaches step ok s₀ s ∧ P s := by
  obtain ⟨s, hs, hP⟩ := (Option.any_eq_true _ _).mp h
  exact ⟨s, reaches_of_runIf as hs, by simpa using hP⟩

/-! ## Histories -/

variable {η : Type} {record : σ → α → σ → η → η}

/-- The machine with a history: `record` sees the state before a step, the action and the state
behind it. -/
def recorded (step : σ → α → Option σ) (record : σ → α → σ → η → η) (x : σ × η) (a : α) :
    Option (σ × η) :=
  (step x.1 a).map fun s' => (s', record x.1 a s' x.2)

theorem recorded_eq_some {x y : σ × η} {a : α} :
    recorded step record x a = some y ↔ step x.1 a = some y.1 ∧ y.2 = record x.1 a y.1 x.2 := by
  unfold recorded
  rw [Option.map_eq_some_iff]
  constructor
  · rintro ⟨s', hs, rfl⟩
    exact ⟨hs, rfl⟩
  · rintro ⟨hs, hy⟩
    exact ⟨y.1, hs, by rw [← hy]⟩

end Xv6.Lib
