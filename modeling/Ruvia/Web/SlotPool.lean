import Mathlib.Algebra.Group.Nat.Defs
import Mathlib.Logic.Function.Basic
import Ruvia.Library.StateMachine

/-!
# `Web.SlotPool` — cancelling the operation of a slot

`slot_pool::cancellation_guard`, `close` and `cancel_operation_by_id`, with the ids that
`worker_cancellation_registration` draws. A slot runs one operation at a time; operations are numbered. A stop is
dispatched at once on the worker and posted from another thread, and what is posted is dispatched at any later time.
-/

namespace Ruvia.Web

open Library Function

inductive PoolSlotAbortReason where
  | none
  | cancelled
  | closing
  deriving DecidableEq, Repr

structure SlotState where
  cancellationId : Nat := 0
  abortReason : PoolSlotAbortReason := .none

structure SlotPool where
  slotCount : Nat
  slot : Nat → SlotState := fun _ => {}
  closing : Bool := false
  nextOperationId : Nat := 0
  posted : List Nat := []
  /-- Operations begun. -/
  started : Nat := 0
  idOf : Nat → Nat := fun _ => 0
  /-- The stop callback may still run. -/
  linked : Nat → Bool := fun _ => false
  beganClosing : Nat → Bool := fun _ => false
  running : Nat → Option Nat := fun _ => none
  /-- The calls of `cancel_slot`, with the operation of the slot. -/
  cancelled : List (Nat × Option Nat) := []

inductive SlotAction where
  | begins (i : Nat) (stoppable requested : Bool)
  | finish (i : Nat)
  | stop (n : Nat) (onWorker : Bool)
  | dispatch (k : Nat)
  /-- The worker is detached. -/
  | lose (k : Nat)
  | cancelById (k : Nat)
  | close

namespace SlotPool

section Operations

variable (s : SlotPool)

/-- `next_operation_id`. -/
def drawId : Nat := if (s.nextOperationId + 1) % 2 ^ 64 = 0 then 1 else s.nextOperationId + 1

def setSlot (i : Nat) (state : SlotState) : SlotPool := { s with slot := update s.slot i state }

def cancelOperationById (k : Nat) : SlotPool :=
  if k = 0 then s
  else
    match (List.range s.slotCount).find? fun i => (s.slot i).cancellationId = k with
    | none => s
    | some i =>
      if (s.slot i).abortReason = .closing then s.setSlot i { s.slot i with cancellationId := 0 }
      else { s.setSlot i ⟨0, .cancelled⟩ with cancelled := s.cancelled ++ [(i, s.running i)] }

def close : SlotPool :=
  if s.closing then s
  else
    { s with
      closing := true
      slot := fun i => if (s.slot i).abortReason = .none then { s.slot i with abortReason := .closing } else s.slot i }

/-- The constructor of `cancellation_guard` up to `arm`. -/
def bindSlot (i : Nat) : SlotPool :=
  { s.setSlot i ⟨s.drawId, if s.closing then .closing else .none⟩ with
    nextOperationId := s.drawId
    started := s.started + 1
    idOf := update s.idOf s.started s.drawId
    beganClosing := update s.beganClosing s.started s.closing
    running := update s.running i (some s.started) }

/-- A stop that was requested before is delivered inline. -/
def arm (n : Nat) (stoppable requested : Bool) : SlotPool :=
  if stoppable = false then s
  else if requested then s.cancelOperationById (s.idOf n)
  else { s with linked := update s.linked n true }

def finish (i n : Nat) : SlotPool :=
  { s.setSlot i
      { s.slot i with
        cancellationId := if (s.slot i).cancellationId = s.idOf n then 0 else (s.slot i).cancellationId } with
    linked := update s.linked n false
    running := update s.running i none }

def stop (n : Nat) (onWorker : Bool) : SlotPool :=
  let s := { s with linked := update s.linked n false }
  if onWorker then s.cancelOperationById (s.idOf n) else { s with posted := s.posted ++ [s.idOf n] }

/-- No slot has two operations, and an id that is drawn has not been given before. -/
def step : SlotAction → Option SlotPool
  | .begins i stoppable requested =>
    if i < s.slotCount ∧ s.running i = none ∧ ∀ n < s.started, s.idOf n ≠ s.drawId then
      some ((s.bindSlot i).arm s.started stoppable requested)
    else none
  | .finish i => (s.running i).map (s.finish i)
  | .stop n onWorker => if s.linked n then some (s.stop n onWorker) else none
  | .dispatch k => if k ∈ s.posted then some ({ s with posted := s.posted.erase k }.cancelOperationById k) else none
  | .lose k => some { s with posted := s.posted.erase k }
  | .cancelById k => some (s.cancelOperationById k)
  | .close => some s.close

end Operations

/-- Dispatching the id `k` ends the operation of slot `i`. -/
def Hits (s : SlotPool) (k i : Nat) : Prop :=
  ∃ n, s.running i = some n ∧ s.idOf n = k ∧ (s.slot i).abortReason ≠ .closing ∧ (i, some n) ∉ s.cancelled

structure Agrees (s : SlotPool) : Prop where
  apart : ∀ n < s.started, ∀ m < s.started, s.idOf n = s.idOf m → n = m
  pos : ∀ n < s.started, s.idOf n ≠ 0
  running : ∀ i n, s.running i = some n → i < s.slotCount ∧ n < s.started
  alone : ∀ i j n, s.running i = some n → s.running j = some n → i = j
  live : ∀ i n, s.running i = some n → (s.slot i).cancellationId = s.idOf n ∨
    (s.slot i).cancellationId = 0 ∧ ((s.slot i).abortReason = .closing ∨ (i, some n) ∈ s.cancelled)
  identity : ∀ i, (s.slot i).cancellationId ≠ 0 →
    ∃ n, s.running i = some n ∧ s.idOf n = (s.slot i).cancellationId ∧ (i, some n) ∉ s.cancelled
  closed : ∀ i, (s.slot i).abortReason = .closing → s.closing = true
  began : ∀ i n, s.running i = some n → s.beganClosing n = true → (s.slot i).abortReason = .closing
  calls : ∀ i o, (i, o) ∈ s.cancelled → ∃ n < s.started, o = some n ∧ s.beganClosing n = false

variable {s t : SlotPool}

theorem Agrees.cancel_cases (h : s.Agrees) (k : Nat) :
    s.cancelOperationById k = s ∧ (∀ i n, s.running i = some n → (s.slot i).cancellationId = s.idOf n → s.idOf n ≠ k) ∨
    ∃ i n, s.running i = some n ∧ s.idOf n = k ∧ (s.slot i).cancellationId = k ∧ (i, some n) ∉ s.cancelled ∧
      ((s.slot i).abortReason = .closing ∧
          s.cancelOperationById k = s.setSlot i { s.slot i with cancellationId := 0 } ∨
        (s.slot i).abortReason ≠ .closing ∧
          s.cancelOperationById k = { s.setSlot i ⟨0, .cancelled⟩ with cancelled := s.cancelled ++ [(i, some n)] }) := by
  unfold cancelOperationById
  split
  · rename_i hzero
    refine .inl ⟨rfl, fun i n hrunning _ => ?_⟩
    rw [hzero]
    exact h.pos n (h.running i n hrunning).2
  · split
    · rename_i hzero hnone
      refine .inl ⟨rfl, fun i n hrunning hid heq => ?_⟩
      have := List.find?_eq_none.mp hnone i (List.mem_range.mpr (h.running i n hrunning).1)
      simp only [decide_eq_true_eq] at this
      exact this (hid.trans heq)
    · rename_i hzero _ i hfound
      have hid := List.find?_some hfound
      simp only [decide_eq_true_eq] at hid
      obtain ⟨n, hrunning, hn, hnot⟩ := h.identity i (by rw [hid]; exact hzero)
      refine .inr ⟨i, n, hrunning, hn.trans hid, hid, hnot, ?_⟩
      split
      · rename_i hclosing
        exact .inl ⟨hclosing, rfl⟩
      · rename_i hclosing
        exact .inr ⟨hclosing, by rw [hrunning]⟩

/-- The invariant holds again, and a slot that is closing stays so. -/
def Keeps (s t : SlotPool) : Prop :=
  t.Agrees ∧ ∀ i, (s.slot i).abortReason = .closing → (t.slot i).abortReason = .closing

theorem Agrees.cancel (h : s.Agrees) (k : Nat) : s.Keeps (s.cancelOperationById k) := by
  rcases h.cancel_cases k with ⟨heq, -⟩ | ⟨i, n, hrunning, hn, hid, hnot, ⟨hclosing, heq⟩ | ⟨hclosing, heq⟩⟩
  · rw [heq]
    exact ⟨h, fun _ => id⟩
  all_goals
    -- The id is used up, also where the slot is closing.
    rw [heq]
    obtain ⟨h1, h2, h3, h4, h5, h6, h7, h8, h9⟩ := h
    unfold setSlot
    refine ⟨?_, by grind [update_apply]⟩
    constructor <;> grind [update_apply]

theorem Keeps.cancel (h : s.Keeps t) (k : Nat) : s.Keeps (t.cancelOperationById k) :=
  ⟨(h.1.cancel k).1, fun i hi => (h.1.cancel k).2 i (h.2 i hi)⟩

theorem Agrees.step (h : s.Agrees) {action : SlotAction} (hstep : s.step action = some t) : s.Keeps t := by
  have hsame : s.Keeps s := ⟨h, fun _ => id⟩
  cases action with
  | begins i stoppable requested =>
    obtain ⟨⟨hi, hidle, hfresh⟩, heq⟩ := Option.ite_none_right_eq_some.mp hstep
    clear hstep
    have hid : s.drawId ≠ 0 := by
      unfold drawId
      split <;> omega
    have hbound : s.Keeps (s.bindSlot i) := by
      obtain ⟨h1, h2, h3, h4, h5, h6, h7, h8, h9⟩ := h
      unfold bindSlot setSlot
      refine ⟨?_, by grind [update_apply]⟩
      constructor
      case identity =>
        -- The slot that is bound has the new operation, the others keep theirs.
        intro j hj
        by_cases heq : j = i
        · refine ⟨s.started, ?_⟩
          grind [update_apply]
        · grind [update_apply]
      all_goals grind [update_apply]
    cases heq
    unfold arm
    split
    · exact hbound
    · split
      · exact hbound.cancel _
      · exact ⟨{ hbound.1 with }, hbound.2⟩
  | finish i =>
    obtain ⟨n, hn, rfl⟩ := Option.map_eq_some_iff.mp hstep
    obtain ⟨h1, h2, h3, h4, h5, h6, h7, h8, h9⟩ := h
    unfold finish setSlot
    refine ⟨?_, by grind [update_apply]⟩
    constructor <;> grind [update_apply]
  | stop n onWorker =>
    obtain ⟨-, heq⟩ := Option.ite_none_right_eq_some.mp hstep
    cases heq
    have hunlinked : s.Keeps { s with linked := update s.linked n false } := ⟨{ h with }, hsame.2⟩
    unfold SlotPool.stop
    dsimp only
    split
    · exact hunlinked.cancel _
    · exact ⟨{ h with }, hsame.2⟩
  | dispatch k =>
    obtain ⟨-, heq⟩ := Option.ite_none_right_eq_some.mp hstep
    cases heq
    have htaken : s.Keeps { s with posted := s.posted.erase k } := ⟨{ h with }, hsame.2⟩
    exact htaken.cancel k
  | lose k =>
    cases hstep
    exact ⟨{ h with }, hsame.2⟩
  | cancelById k =>
    cases hstep
    exact hsame.cancel k
  | close =>
    cases hstep
    unfold SlotPool.close
    split
    · exact hsame
    · obtain ⟨h1, h2, h3, h4, h5, h6, h7, h8, h9⟩ := h
      refine ⟨?_, by grind⟩
      constructor <;> grind

end SlotPool

open SlotPool

def slotPoolMachine (slotCount : Nat) : StateMachine SlotPool SlotAction where
  init s := s = { slotCount }
  step := SlotPool.step

theorem agrees_of_reachable {slotCount : Nat} {s : SlotPool} (hs : (slotPoolMachine slotCount).Reachable s) :
    s.Agrees := by
  refine hs.invariant (fun s hinit => ?_) fun s action t h hstep => (h.step hstep).1
  cases hinit
  constructor <;> simp

/-- **A cancellation ends the operation it was meant for.** -/
theorem slot_pool_cancellation {slotCount : Nat} {s : SlotPool} (hs : (slotPoolMachine slotCount).Reachable s) :
    (∀ k,
      (∀ i, s.Hits k i → (s.cancelOperationById k).cancelled = s.cancelled ++ [(i, s.running i)] ∧
        ∀ j, ((s.cancelOperationById k).slot j).abortReason =
          if j = i then .cancelled else (s.slot j).abortReason) ∧
      ((∀ i, ¬ s.Hits k i) → (s.cancelOperationById k).cancelled = s.cancelled ∧
        ∀ j, ((s.cancelOperationById k).slot j).abortReason = (s.slot j).abortReason)) ∧
    (∀ n < s.started, (∀ i, s.running i ≠ some n) → s.cancelOperationById (s.idOf n) = s) ∧
    (∀ t, (slotPoolMachine slotCount).Reaches s t → ∀ i, (s.slot i).abortReason = .closing →
      (t.slot i).abortReason = .closing) ∧
    ∀ n, s.beganClosing n = true → (∀ i, s.running i = some n → (s.slot i).abortReason = .closing) ∧
      ∀ i, (i, some n) ∉ s.cancelled := by
  have h := agrees_of_reachable hs
  refine ⟨fun k => ?_, fun n hn hidle => ?_, fun t ht i => ?_, fun n hn => ⟨fun i hi => h.began i n hi hn, ?_⟩⟩
  · rcases h.cancel_cases k with ⟨heq, hnone⟩ | ⟨i, n, hrunning, hn, hid, hnot, ⟨hclosing, heq⟩ | ⟨hclosing, heq⟩⟩
    all_goals
      rw [heq]
      obtain ⟨h1, h2, h3, h4, h5, h6, h7, h8, h9⟩ := h
      unfold Hits
    · grind
    · unfold setSlot
      grind [update_apply]
    · unfold setSlot
      grind [update_apply]
  · rcases h.cancel_cases (s.idOf n) with ⟨heq, -⟩ | ⟨i, m, hrunning, hm, -⟩
    · exact heq
    · have := h.apart m (h.running i m hrunning).2 n hn hm
      exact absurd (this ▸ hrunning) (hidle i)
  · exact ht.stable (fun s action t hs h hstep => ((agrees_of_reachable hs).step hstep).2 i h) hs
  · intro i hmem
    obtain ⟨m, -, heq, hm⟩ := h.calls i _ hmem
    cases heq
    rw [hn] at hm
    cases hm

/-- A stop that comes in behind its operation. -/
theorem slot_pool_cancellation_late : ∃ s : SlotPool, s.posted = [1] ∧ s.running 0 = some 1 ∧
    s.cancelOperationById 1 = s := by
  let actions : List SlotAction := [.begins 0 true false, .stop 0 false, .finish 0, .begins 0 true false]
  have hs := (StateMachine.Reachable.start (M := slotPoolMachine 1) rfl).run actions
  refine ⟨_, rfl, rfl, (slot_pool_cancellation hs).2.1 0 (by decide) fun i h => ?_⟩
  cases i <;> cases h

end Ruvia.Web
