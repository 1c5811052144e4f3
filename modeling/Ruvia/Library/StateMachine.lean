import Mathlib.Logic.Relation
import Mathlib.Order.WellFounded

/-!
# `Library.StateMachine` — runs of a state machine

A machine with atomic steps, each named by an action; a step that is not enabled has no result. A property of
every run is proved once per action: what holds at the start and is kept by each step holds of every reachable
state (`Reachable.invariant`), and what is kept by each step from a reachable state holds behind it forever
(`Reaches.stable`). A run ends when a measure falls on it again and again (`exists_of_falling`).
-/

namespace Library

structure StateMachine (σ α : Type*) where
  init : σ → Prop
  step : σ → α → Option σ

namespace StateMachine

variable {σ α : Type*} (M : StateMachine σ α)

/-- Some action leads from one state to the other. -/
def Next (s t : σ) : Prop := ∃ a, M.step s a = some t

/-- Any number of steps. -/
def Reaches : σ → σ → Prop := Relation.ReflTransGen M.Next

def Reachable (s : σ) : Prop := ∃ first, M.init first ∧ M.Reaches first s

variable {M} {s t : σ}

theorem Reachable.start (h : M.init s) : M.Reachable s := ⟨s, h, .refl⟩

theorem Reachable.trans (h : M.Reachable s) (hst : M.Reaches s t) : M.Reachable t := by
  obtain ⟨first, hinit, hs⟩ := h
  exact ⟨first, hinit, Relation.ReflTransGen.trans hs hst⟩

theorem Reachable.step {a : α} (h : M.Reachable s) (ha : M.step s a = some t) : M.Reachable t :=
  h.trans (.single ⟨a, ha⟩)

/-- **The invariant rule.** -/
theorem Reachable.invariant {P : σ → Prop} (hinit : ∀ s, M.init s → P s)
    (hstep : ∀ s a t, P s → M.step s a = some t → P t) (h : M.Reachable s) : P s := by
  obtain ⟨first, hfirst, hs⟩ := h
  induction hs with
  | refl => exact hinit first hfirst
  | tail _ hnext ih =>
    obtain ⟨a, ha⟩ := hnext
    exact hstep _ a _ ih ha

/-- **The stability rule**: a property that no step from a reachable state ends. -/
theorem Reaches.stable {P : σ → Prop} (hstep : ∀ s a t, M.Reachable s → P s → M.step s a = some t → P t)
    (hs : M.Reachable s) (hst : M.Reaches s t) (hp : P s) : P t := by
  induction hst with
  | refl => exact hp
  | tail hmid hnext ih =>
    obtain ⟨a, ha⟩ := hnext
    exact hstep _ a _ (hs.trans hmid) ih ha

/-- The state behind a list of actions; an action that is not enabled is skipped. -/
def run (M : StateMachine σ α) (s : σ) (actions : List α) : σ :=
  actions.foldl (fun s a => (M.step s a).getD s) s

theorem run_append (s : σ) (actions more : List α) :
    M.run s (actions ++ more) = M.run (M.run s actions) more := List.foldl_append

theorem reaches_run (s : σ) (actions : List α) : M.Reaches s (M.run s actions) := by
  induction actions generalizing s with
  | nil => exact .refl
  | cons a actions ih =>
    show M.Reaches s (M.run ((M.step s a).getD s) actions)
    cases ha : M.step s a with
    | none => exact ih s
    | some t => exact .head ⟨a, ha⟩ (ih t)

theorem Reachable.run (h : M.Reachable s) (actions : List α) : M.Reachable (M.run s actions) :=
  h.trans (reaches_run s actions)

/-! ## Runs under a condition -/

/-- Reachable by steps that each meet a condition on their action and the state before it. -/
def ReachableVia (M : StateMachine σ α) (ok : σ → α → Prop) (s : σ) : Prop :=
  ∃ first, M.init first ∧ Relation.ReflTransGen (fun s t => ∃ a, ok s a ∧ M.step s a = some t) first s

theorem ReachableVia.start {ok : σ → α → Prop} (h : M.init s) : M.ReachableVia ok s := ⟨s, h, .refl⟩

theorem ReachableVia.step {ok : σ → α → Prop} {a : α} (h : M.ReachableVia ok s) (hok : ok s a)
    (ha : M.step s a = some t) : M.ReachableVia ok t := by
  obtain ⟨first, hinit, hs⟩ := h
  exact ⟨first, hinit, hs.tail ⟨a, hok, ha⟩⟩

/-- **The invariant rule** of the runs under a condition. -/
theorem ReachableVia.invariant {ok : σ → α → Prop} {P : σ → Prop} (hinit : ∀ s, M.init s → P s)
    (hstep : ∀ s a t, P s → ok s a → M.step s a = some t → P t) (h : M.ReachableVia ok s) : P s := by
  obtain ⟨first, hfirst, hs⟩ := h
  induction hs with
  | refl => exact hinit first hfirst
  | tail _ hnext ih =>
    obtain ⟨a, hok, ha⟩ := hnext
    exact hstep _ a _ ih hok ha

/-- The state behind a list of actions, when each is enabled and meets the condition. -/
def follow (M : StateMachine σ α) (ok : σ → α → Prop) [∀ s a, Decidable (ok s a)] : σ → List α → Option σ
  | s, [] => some s
  | s, a :: actions => if ok s a then (M.step s a).bind fun t => M.follow ok t actions else none

theorem ReachableVia.follow {ok : σ → α → Prop} [∀ s a, Decidable (ok s a)] {actions : List α}
    (h : M.ReachableVia ok s) (ht : M.follow ok s actions = some t) : M.ReachableVia ok t := by
  induction actions generalizing s with
  | nil =>
    cases ht
    exact h
  | cons a actions ih =>
    rw [StateMachine.follow] at ht
    split at ht
    · rename_i hok
      obtain ⟨next, hnext, ht⟩ := Option.bind_eq_some_iff.mp ht
      exact ih (h.step hok hnext) ht
    · cases ht

/-- A run under a condition, with the states it leaves. -/
inductive PassesVia (M : StateMachine σ α) (ok : σ → α → Prop) : σ → List σ → σ → Prop
  | done (s : σ) : PassesVia M ok s [] s
  | step {s t u : σ} {a : α} {passed : List σ} (hok : ok s a) (ha : M.step s a = some t)
      (hrest : PassesVia M ok t passed u) : PassesVia M ok s (s :: passed) u

/-- **The termination rule**: on an endless run whose measure is never raised, and falls again and again, what ends
the run comes about. -/
theorem exists_of_falling {β : Type*} [Preorder β] [WellFoundedLT β] (run : ℕ → σ) (measure : σ → β) {P : σ → Prop}
    (hstays : ∀ n, ¬ P (run (n + 1)) → measure (run (n + 1)) ≤ measure (run n))
    (hfalls : ∀ n, ∃ m ≥ n, P (run (m + 1)) ∨ measure (run (m + 1)) < measure (run m)) : ∃ n, P (run n) := by
  by_contra hnever
  have hP : ∀ n, ¬ P (run n) := fun n h => hnever ⟨n, h⟩
  have hle : ∀ n k, measure (run (n + k)) ≤ measure (run n) := by
    intro n k
    induction k with
    | zero => exact le_refl _
    | succ k ih => exact (hstays (n + k) (hP _)).trans ih
  have hend : ∀ b n, measure (run n) = b → False := by
    intro b
    induction b using WellFoundedLT.induction with
    | ind b ih =>
      intro n hn
      obtain ⟨m, hm, hfall⟩ := hfalls n
      have hlt := hfall.resolve_left (hP _)
      obtain ⟨k, rfl⟩ := Nat.exists_eq_add_of_le hm
      exact ih _ (hn ▸ hlt.trans_le (hle n k)) _ rfl
  exact hend _ 0 rfl

end StateMachine

end Library
