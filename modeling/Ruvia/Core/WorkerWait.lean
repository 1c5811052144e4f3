import Mathlib.Algebra.Group.Nat.Defs
import Mathlib.Logic.Function.Basic

/-!
# `Core.WorkerWait` — one waiter at a time, bound to a worker

`suspend_race_state`, `worker_wait_slot` and `worker_single_wait_awaiter`: the machinery under the channel and
the one-shot exchange. `WorkerWaits` is a slot together with all awaiters that were ever created for it; every
operation below is one section under the owner's lock. Awaiters are numbered; one that is not started yet is in
its initial state. A `std::terminate` is the flag `terminated`.
-/

namespace Ruvia.Core

open Function

/-- The outcomes of a wait that carry no payload. -/
inductive WorkerWaitStatus where
  | closed
  | workerStopping
  | timedOut
  | cancelled
  deriving DecidableEq, Repr

inductive WorkerWaitResult (ρ : Type) where
  | value (payload : ρ)
  | outcome (status : WorkerWaitStatus)
  deriving DecidableEq, Repr

/-! ## The race of completion and suspension -/

inductive SuspendRaceState (ρ : Type) where
  | pending
  | suspended
  | readyBeforeSuspend (value : ρ)
  | readyAfterSuspend (value : ρ)
  deriving DecidableEq, Repr

namespace SuspendRaceState

variable {ρ : Type}

/-- `suspend`: whether the coroutine suspends; `none` is a `std::terminate`. -/
def suspend : SuspendRaceState ρ → Option (SuspendRaceState ρ × Bool)
  | .pending => some (.suspended, true)
  | .readyBeforeSuspend value => some (.readyBeforeSuspend value, false)
  | .suspended | .readyAfterSuspend _ => none

/-- `complete`: whether the suspended coroutine now needs a wake. -/
def complete (value : ρ) : SuspendRaceState ρ → Option (SuspendRaceState ρ × Bool)
  | .pending => some (.readyBeforeSuspend value, false)
  | .suspended => some (.readyAfterSuspend value, true)
  | .readyBeforeSuspend _ | .readyAfterSuspend _ => none

def takeValue : SuspendRaceState ρ → Option ρ
  | .readyBeforeSuspend value | .readyAfterSuspend value => some value
  | .pending | .suspended => none

end SuspendRaceState

/-! ## Awaiters -/

/-- How far the `co_await` expression of an awaiter has come. -/
inductive AwaitProgress where
  | cold
  /-- `await_ready` returned true. -/
  | ready
  /-- `await_ready` returned false. -/
  | published
  /-- `await_suspend` returned true. -/
  | waiting
  /-- `await_suspend` returned false. -/
  | continuing
  /-- `await_resume` was called. -/
  | resumed
  /-- `await_ready` or `await_suspend` threw. -/
  | threw
  deriving DecidableEq, Repr

/-- `worker_single_wait_awaiter`. `scheduledResumes` counts the resumptions handed to the worker or running in a
timer callback, `resumes` the times the coroutine went on behind the wait. -/
structure WorkerSingleWaitAwaiter (ρ : Type) where
  progress : AwaitProgress := .cold
  completion : SuspendRaceState (WorkerWaitResult ρ) := .pending
  generation : Nat := 0
  scheduledResumes : Nat := 0
  resumes : Nat := 0

/-- What `schedule_timer` does with the deadline of a suspending wait. -/
inductive TimerSchedule where
  | scheduled
  | workerStopping
  | threw
  deriving DecidableEq, Repr

/-- A slot and the awaiters of its owner; `timers` are the awaiters whose timer callback may still run. -/
structure WorkerWaits (ρ : Type) where
  waiter : Option Nat := none
  generation : Nat := 0
  nextGeneration : Nat := 0
  awaiters : Nat → WorkerSingleWaitAwaiter ρ := fun _ => {}
  timers : Nat → Bool := fun _ => false
  terminated : Bool := false

namespace WorkerWaits

variable {ρ : Type} (s : WorkerWaits ρ)

def occupied : Bool := s.waiter.isSome

/-- `reserve_generation`: the next nonzero value of a 64-bit counter. -/
def reserveGeneration : WorkerWaits ρ × Nat :=
  let next := (s.nextGeneration + 1) % 2 ^ 64
  let next := if next = 0 then 1 else next
  ({ s with nextGeneration := next }, next)

def detachAll : WorkerWaits ρ := { s with waiter := none, generation := 0 }

def set (w : Nat) (awaiter : WorkerSingleWaitAwaiter ρ) : WorkerWaits ρ :=
  { s with awaiters := update s.awaiters w awaiter }

/-- `complete_result` and `complete_status` of one awaiter, with its answer. -/
def completeAwaiter (w : Nat) (result : WorkerWaitResult ρ) : WorkerWaits ρ × Bool :=
  match (s.awaiters w).completion.complete result with
  | none => ({ s with terminated := true }, false)
  | some (completion, wake) => (s.set w { s.awaiters w with completion }, wake)

/-- `wake`, and the direct resumption of a timer callback: the continuation is resumed once more. -/
def resumeContinuation (w : Nat) : WorkerWaits ρ :=
  s.set w { s.awaiters w with scheduledResumes := (s.awaiters w).scheduledResumes + 1 }

/-- `worker_wait_slot::complete`: completes the attached waiter, if any, and detaches it. -/
def complete (result : WorkerWaitResult ρ) : WorkerWaits ρ :=
  match s.waiter with
  | none => s
  | some w =>
    let (s, wake) := s.completeAwaiter w result
    let s := s.detachAll
    if wake then s.resumeContinuation w else s

/-- The end of an `await_ready` that found a result. -/
def completeReady (w : Nat) (result : WorkerWaitResult ρ) : WorkerWaits ρ :=
  let s := (s.completeAwaiter w result).1
  s.set w { s.awaiters w with progress := .ready }

/-- `publish`: the awaiter becomes the waiter; only a stoppable wait needs a generation. -/
def publish (w : Nat) (stoppable : Bool) : WorkerWaits ρ :=
  let (s, generation) := if stoppable then s.reserveGeneration else (s, 0)
  { s.set w { s.awaiters w with progress := .published, generation } with waiter := some w, generation }

/-- `complete_or_publish`, for a wait whose token and timeout are `stopRequested` and `expired` by now. -/
def completeOrPublish (w : Nat) (stopRequested expired stoppable : Bool) : WorkerWaits ρ :=
  if stopRequested then s.completeReady w (.outcome .cancelled)
  else if expired then s.completeReady w (.outcome .timedOut)
  else if s.occupied then s.set w { s.awaiters w with progress := .threw }
  else s.publish w stoppable

/-- The step of `suspend` that publishes the continuation. -/
def publishContinuation (w : Nat) : WorkerWaits ρ :=
  match (s.awaiters w).completion.suspend with
  | none => { s with terminated := true }
  | some (completion, suspended) =>
    s.set w { s.awaiters w with completion, progress := if suspended then .waiting else .continuing }

/-- `suspend`; a wait with a timeout that is still attached arms its timer first. -/
def suspend (w : Nat) (timed : Bool) (schedule : TimerSchedule) : WorkerWaits ρ :=
  if timed = true ∧ s.waiter = some w then
    match schedule with
    | .scheduled => { s with timers := update s.timers w true }.publishContinuation w
    | .threw => s.detachAll.set w { s.awaiters w with progress := .threw }
    | .workerStopping =>
      (s.detachAll.completeAwaiter w (.outcome .workerStopping)).1.publishContinuation w
  else s.publishContinuation w

/-- `on_timer_completed`; `expired` tells a deadline from a stopped timer queue. -/
def onTimerCompleted (w : Nat) (expired : Bool) : WorkerWaits ρ :=
  if s.waiter = some w then
    let (s, wake) :=
      s.detachAll.completeAwaiter w (.outcome (if expired then .timedOut else .workerStopping))
    if wake then s.resumeContinuation w else s
  else s

/-- The timer callback of an awaiter runs, once for each arming. -/
def timerFires (w : Nat) (expired : Bool) : Option (WorkerWaits ρ) :=
  if s.timers w then some ({ s with timers := update s.timers w false }.onTimerCompleted w expired)
  else none

/-- `request_cancellation` of an awaiter, with the generation it was registered for. -/
def requestCancellation (w : Nat) : WorkerWaits ρ :=
  if s.waiter.isSome = true ∧ s.generation = (s.awaiters w).generation then s.complete (.outcome .cancelled) else s

/-- A stop callback runs; it is registered for a suspended wait with a generation. -/
def stopFires (w : Nat) : Option (WorkerWaits ρ) :=
  if (s.awaiters w).generation ≠ 0 ∧ ((s.awaiters w).progress = .waiting ∨ (s.awaiters w).progress = .resumed) then
    some (s.requestCancellation w)
  else none

/-- `await_resume` of an awaiter that may go on: after a synchronous end, or when a scheduled resumption runs. A
resumption of a coroutine that is not suspended in this wait would be undefined. -/
def awaitResume (w : Nat) : Option (WorkerWaits ρ × WorkerWaitResult ρ) :=
  let awaiter := s.awaiters w
  match awaiter.progress with
  | .ready | .continuing =>
    awaiter.completion.takeValue.map fun result =>
      (s.set w { awaiter with progress := .resumed, resumes := awaiter.resumes + 1 }, result)
  | .waiting =>
    if awaiter.scheduledResumes = 0 then none
    else
      awaiter.completion.takeValue.map fun result =>
        (s.set w
          { awaiter with
            progress := .resumed
            resumes := awaiter.resumes + 1
            scheduledResumes := awaiter.scheduledResumes - 1 }, result)
  | .cold | .published | .resumed | .threw => none

end WorkerWaits

/-! ## What an awaiter can be -/

/-- **The awaiter and the slot agree.** An attached waiter is pending or suspended; any other that was started has
its result, and exactly one way on. -/
def WorkerSingleWaitAwaiter.Consistent {ρ : Type} (a : WorkerSingleWaitAwaiter ρ) (attached : Prop) : Prop :=
  match a.progress with
  | .cold | .threw => ¬ attached ∧ a.completion = .pending ∧ a.scheduledResumes = 0 ∧ a.resumes = 0
  | .ready | .continuing =>
    ¬ attached ∧ (∃ r, a.completion = .readyBeforeSuspend r) ∧ a.scheduledResumes = 0 ∧ a.resumes = 0
  | .published =>
    (attached ∧ a.completion = .pending ∨ ¬ attached ∧ ∃ r, a.completion = .readyBeforeSuspend r) ∧
      a.scheduledResumes = 0 ∧ a.resumes = 0
  | .waiting =>
    (attached ∧ a.completion = .suspended ∧ a.scheduledResumes = 0 ∨
        ¬ attached ∧ (∃ r, a.completion = .readyAfterSuspend r) ∧ a.scheduledResumes = 1) ∧
      a.resumes = 0
  | .resumed => ¬ attached ∧ (∃ r, a.completion.takeValue = some r) ∧ a.scheduledResumes = 0 ∧ a.resumes = 1

namespace WorkerWaits

variable {ρ : Type} {s t : WorkerWaits ρ} {w : Nat}

/-- The invariant of a slot and its awaiters. -/
structure Holds (s : WorkerWaits ρ) : Prop where
  terminated : s.terminated = false
  consistent : ∀ w, (s.awaiters w).Consistent (s.waiter = some w)

/-- What an awaiter was completed with. -/
def result (s : WorkerWaits ρ) (w : Nat) : Option (WorkerWaitResult ρ) := (s.awaiters w).completion.takeValue

/-- An operation on one awaiter. -/
structure Touches (s t : WorkerWaits ρ) (w : Nat) (a : WorkerSingleWaitAwaiter ρ) : Prop where
  awaiters : t.awaiters = update s.awaiters w a
  terminated : t.terminated = s.terminated
  waiter : ∀ v, v ≠ w → (t.waiter = some v ↔ s.waiter = some v)

theorem Touches.at_self {a : WorkerSingleWaitAwaiter ρ} (h : Touches s t w a) : t.awaiters w = a := by
  rw [h.awaiters, update_self]

theorem Touches.at_other {a : WorkerSingleWaitAwaiter ρ} (h : Touches s t w a) {v : Nat} (hne : v ≠ w) :
    t.awaiters v = s.awaiters v := by
  rw [h.awaiters, update_of_ne hne]

theorem Touches.holds {a : WorkerSingleWaitAwaiter ρ} (h : Touches s t w a) (hs : s.Holds)
    (ha : a.Consistent (t.waiter = some w)) : t.Holds := by
  refine ⟨h.terminated.trans hs.terminated, fun v => ?_⟩
  by_cases hv : v = w
  · rw [hv, h.at_self]
    exact ha
  · rw [h.at_other hv, propext (h.waiter v hv)]
    exact hs.consistent v

/-- An attached waiter waits. -/
theorem Holds.attached (h : s.Holds) (hw : s.waiter = some w) :
    (s.awaiters w).resumes = 0 ∧ (s.awaiters w).scheduledResumes = 0 ∧
      ((s.awaiters w).progress = .published ∧ (s.awaiters w).completion = .pending ∨
        (s.awaiters w).progress = .waiting ∧ (s.awaiters w).completion = .suspended) := by
  have hc := h.consistent w
  unfold WorkerSingleWaitAwaiter.Consistent at hc
  split at hc
  · exact absurd hw hc.1
  · exact absurd hw hc.1
  · exact absurd hw hc.1
  · exact absurd hw hc.1
  · rename_i hprogress
    rcases hc.1 with hpending | hready
    · exact ⟨hc.2.2, hc.2.1, .inl ⟨hprogress, hpending.2⟩⟩
    · exact absurd hw hready.1
  · rename_i hprogress
    rcases hc.1 with hsuspended | hready
    · exact ⟨hc.2, hsuspended.2.2, .inr ⟨hprogress, hsuspended.2.1⟩⟩
    · exact absurd hw hready.1
  · exact absurd hw hc.1

theorem Holds.cold (h : s.Holds) (hcold : (s.awaiters w).progress = .cold) :
    s.waiter ≠ some w ∧ (s.awaiters w).completion = .pending ∧ (s.awaiters w).scheduledResumes = 0 ∧
      (s.awaiters w).resumes = 0 := by
  have hc := h.consistent w
  unfold WorkerSingleWaitAwaiter.Consistent at hc
  rw [hcold] at hc
  exact hc

/-! ## What an operation does -/

/-- One awaiter gets its result. -/
structure Completes (s t : WorkerWaits ρ) (w : Nat) (r : WorkerWaitResult ρ) : Prop where
  before : s.result w = none
  result : t.result w = some r
  resumed : (s.awaiters w).progress ≠ .resumed ∧ (t.awaiters w).progress ≠ .resumed
  other : ∀ v, v ≠ w → t.awaiters v = s.awaiters v

/-- No payload arrives, and no wait goes on. -/
structure Quiet (s t : WorkerWaits ρ) : Prop where
  value : ∀ v payload, t.result v = some (.value payload) ↔ s.result v = some (.value payload)
  resumed : ∀ v, (t.awaiters v).progress = .resumed ↔ (s.awaiters v).progress = .resumed

theorem Quiet.refl (s : WorkerWaits ρ) : Quiet s s := ⟨fun _ _ => Iff.rfl, fun _ => Iff.rfl⟩

theorem Quiet.trans {u : WorkerWaits ρ} (h : Quiet s t) (h' : Quiet t u) : Quiet s u :=
  ⟨fun v payload => (h'.value v payload).trans (h.value v payload), fun v => (h'.resumed v).trans (h.resumed v)⟩

theorem Completes.quiet {status : WorkerWaitStatus} (h : Completes s t w (.outcome status)) : Quiet s t := by
  constructor
  · intro v payload
    by_cases hv : v = w
    · rw [hv, h.result, h.before]
      simp
    · unfold WorkerWaits.result
      rw [h.other v hv]
  · intro v
    by_cases hv : v = w
    · rw [hv]
      exact ⟨fun hr => absurd hr h.resumed.2, fun hr => absurd hr h.resumed.1⟩
    · rw [h.other v hv]

/-- An operation that keeps the result and the progress of its awaiter is quiet. -/
theorem Touches.quiet {a : WorkerSingleWaitAwaiter ρ} (h : Touches s t w a)
    (hresult : ∀ payload, a.completion.takeValue = some (.value payload) ↔ s.result w = some (.value payload))
    (hresumed : a.progress = .resumed ↔ (s.awaiters w).progress = .resumed) : Quiet s t := by
  constructor
  · intro v payload
    by_cases hv : v = w
    · rw [hv, result, h.at_self]
      exact hresult payload
    · unfold result
      rw [h.at_other hv]
  · intro v
    by_cases hv : v = w
    · rw [hv, h.at_self]
      exact hresumed
    · rw [h.at_other hv]

theorem Touches.completes {a : WorkerSingleWaitAwaiter ρ} {r : WorkerWaitResult ρ} (h : Touches s t w a)
    (hbefore : s.result w = none) (hresult : a.completion.takeValue = some r)
    (hs : (s.awaiters w).progress ≠ .resumed) (ha : a.progress ≠ .resumed) : Completes s t w r := by
  refine ⟨hbefore, ?_, ⟨hs, ?_⟩, fun v hv => h.at_other hv⟩
  · rw [result, h.at_self]
    exact hresult
  · rw [h.at_self]
    exact ha

/-- Detaching the waiter and giving it another state. -/
theorem touches_detach {a : WorkerSingleWaitAwaiter ρ} (hw : s.waiter = some w)
    (hawaiters : t.awaiters = update s.awaiters w a) (hterminated : t.terminated = s.terminated)
    (hwaiter : t.waiter = none) : Touches s t w a := by
  refine ⟨hawaiters, hterminated, fun v hv => ?_⟩
  rw [hwaiter, hw]
  exact ⟨nofun, fun h => absurd (Option.some.inj h).symm hv⟩

/-- **Completion of the attached waiter.** It is detached with its result, and woken if it was suspended. -/
theorem complete_attached (h : s.Holds) (hw : s.waiter = some w) (r : WorkerWaitResult ρ) :
    (s.complete r).Holds ∧ Completes s (s.complete r) w r ∧ (s.complete r).waiter = none := by
  obtain ⟨hresumes, hscheduled, hphase⟩ := h.attached hw
  have hbefore : s.result w = none := by
    rcases hphase with ⟨_, hcompletion⟩ | ⟨_, hcompletion⟩ <;> rw [result, hcompletion] <;> rfl
  have hresumed : (s.awaiters w).progress ≠ .resumed := by
    rcases hphase with ⟨hprogress, _⟩ | ⟨hprogress, _⟩ <;> rw [hprogress] <;> exact AwaitProgress.noConfusion
  rcases hphase with ⟨hprogress, hcompletion⟩ | ⟨hprogress, hcompletion⟩
  · have heq : s.complete r =
        (s.set w { s.awaiters w with completion := .readyBeforeSuspend r }).detachAll := by
      simp only [complete, hw, completeAwaiter, hcompletion, SuspendRaceState.complete, Bool.false_eq_true, if_false]
    rw [heq]
    have htouch : Touches s (s.set w { s.awaiters w with completion := .readyBeforeSuspend r }).detachAll w
        { s.awaiters w with completion := .readyBeforeSuspend r } := touches_detach hw rfl rfl rfl
    refine ⟨htouch.holds h ?_, htouch.completes hbefore rfl hresumed hresumed, rfl⟩
    simp only [WorkerSingleWaitAwaiter.Consistent, hprogress]
    exact ⟨.inr ⟨nofun, r, rfl⟩, hscheduled, hresumes⟩
  · have heq : s.complete r =
        ((s.set w { s.awaiters w with completion := .readyAfterSuspend r }).detachAll).resumeContinuation w := by
      simp only [complete, hw, completeAwaiter, hcompletion, SuspendRaceState.complete, if_true]
    rw [heq]
    have htouch : Touches s
        ((s.set w { s.awaiters w with completion := .readyAfterSuspend r }).detachAll.resumeContinuation w) w
        { s.awaiters w with completion := .readyAfterSuspend r, scheduledResumes := 1 } := by
      refine touches_detach hw ?_ rfl rfl
      simp only [resumeContinuation, detachAll, set, update_self, update_idem, hscheduled]
    refine ⟨htouch.holds h ?_, htouch.completes hbefore rfl hresumed hresumed, rfl⟩
    simp only [WorkerSingleWaitAwaiter.Consistent, hprogress]
    exact ⟨.inr ⟨nofun, ⟨r, rfl⟩, trivial⟩, hresumes⟩

/-- Whatever happens to the slot, a terminal status for the waiter is quiet. -/
theorem complete_outcome (h : s.Holds) (status : WorkerWaitStatus) :
    (s.complete (.outcome status)).Holds ∧ Quiet s (s.complete (.outcome status)) ∧
      (s.complete (.outcome status)).waiter = none := by
  cases hw : s.waiter with
  | none =>
    rw [complete, hw]
    exact ⟨h, .refl s, hw⟩
  | some w =>
    obtain ⟨hholds, hcompletes, hwaiter⟩ := complete_attached h hw (.outcome status)
    exact ⟨hholds, hcompletes.quiet, hwaiter⟩

/-- **A wait that ends in `await_ready`.** -/
theorem completeReady_spec (h : s.Holds) (hcold : (s.awaiters w).progress = .cold) (r : WorkerWaitResult ρ) :
    (s.completeReady w r).Holds ∧ Completes s (s.completeReady w r) w r ∧
      (s.completeReady w r).waiter = s.waiter := by
  obtain ⟨hdetached, hcompletion, hscheduled, hresumes⟩ := h.cold hcold
  have heq : s.completeReady w r =
      s.set w { s.awaiters w with completion := .readyBeforeSuspend r, progress := .ready } := by
    simp only [completeReady, completeAwaiter, hcompletion, SuspendRaceState.complete, set, update_self,
      update_idem]
  rw [heq]
  have htouch : Touches s
      (s.set w { s.awaiters w with completion := .readyBeforeSuspend r, progress := .ready }) w
      { s.awaiters w with completion := .readyBeforeSuspend r, progress := .ready } := ⟨rfl, rfl, fun _ _ => Iff.rfl⟩
  refine ⟨htouch.holds h ⟨hdetached, ⟨r, rfl⟩, hscheduled, hresumes⟩, htouch.completes ?_ rfl ?_ ?_, rfl⟩
  · rw [result, hcompletion]
    rfl
  · rw [hcold]
    exact AwaitProgress.noConfusion
  · exact AwaitProgress.noConfusion

theorem touches_publish (hnone : s.waiter = none) (stoppable : Bool) :
    ∃ g, Touches s (s.publish w stoppable) w { s.awaiters w with progress := .published, generation := g } ∧
      (s.publish w stoppable).waiter = some w := by
  have hother : ∀ v, v ≠ w → (some w = some v ↔ s.waiter = some v) := by
    intro v hv
    rw [hnone]
    exact ⟨fun h => absurd (Option.some.inj h).symm hv, nofun⟩
  cases stoppable with
  | false => exact ⟨0, ⟨rfl, rfl, hother⟩, rfl⟩
  | true => exact ⟨_, ⟨rfl, rfl, hother⟩, rfl⟩

/-- **A wait that found nothing to deliver** ends at once, or becomes the waiter of a free slot. -/
theorem completeOrPublish_spec (h : s.Holds) (hcold : (s.awaiters w).progress = .cold)
    (stopRequested expired stoppable : Bool) :
    (s.completeOrPublish w stopRequested expired stoppable).Holds ∧
      Quiet s (s.completeOrPublish w stopRequested expired stoppable) ∧
      ((s.completeOrPublish w stopRequested expired stoppable).waiter = s.waiter ∨
        s.waiter = none ∧ (s.completeOrPublish w stopRequested expired stoppable).waiter = some w) := by
  unfold completeOrPublish
  split
  · obtain ⟨hholds, hcompletes, hwaiter⟩ := completeReady_spec h hcold (.outcome .cancelled)
    exact ⟨hholds, hcompletes.quiet, .inl hwaiter⟩
  · split
    · obtain ⟨hholds, hcompletes, hwaiter⟩ := completeReady_spec h hcold (.outcome .timedOut)
      exact ⟨hholds, hcompletes.quiet, .inl hwaiter⟩
    · obtain ⟨hdetached, hcompletion, hscheduled, hresumes⟩ := h.cold hcold
      split
      · have htouch : Touches s (s.set w { s.awaiters w with progress := .threw }) w
            { s.awaiters w with progress := .threw } := ⟨rfl, rfl, fun _ _ => Iff.rfl⟩
        refine ⟨htouch.holds h ⟨hdetached, hcompletion, hscheduled, hresumes⟩,
          htouch.quiet (fun _ => Iff.rfl) ?_, .inl rfl⟩
        rw [hcold]
        exact ⟨nofun, nofun⟩
      · rename_i hfree
        have hnone : s.waiter = none := by simpa [occupied] using hfree
        obtain ⟨g, htouch, hwaiter⟩ := touches_publish hnone stoppable
        refine ⟨htouch.holds h ?_, htouch.quiet (fun _ => Iff.rfl) ?_, .inr ⟨hnone, hwaiter⟩⟩
        · exact ⟨.inl ⟨hwaiter, hcompletion⟩, hscheduled, hresumes⟩
        · rw [hcold]
          exact ⟨nofun, nofun⟩

/-- The continuation of a published wait, whether or not it was completed meanwhile. -/
theorem publishContinuation_spec (h : s.Holds) (hpublished : (s.awaiters w).progress = .published) :
    (s.publishContinuation w).Holds ∧ Quiet s (s.publishContinuation w) ∧
      (s.publishContinuation w).waiter = s.waiter := by
  have hc := h.consistent w
  unfold WorkerSingleWaitAwaiter.Consistent at hc
  rw [hpublished] at hc
  obtain ⟨hphase, hscheduled, hresumes⟩ := hc
  rcases hphase with ⟨hattached, hcompletion⟩ | ⟨hdetached, r, hcompletion⟩
  · have heq : s.publishContinuation w =
        s.set w { s.awaiters w with completion := .suspended, progress := .waiting } := by
      simp only [publishContinuation, hcompletion, SuspendRaceState.suspend, if_true]
    rw [heq]
    have htouch : Touches s (s.set w { s.awaiters w with completion := .suspended, progress := .waiting }) w
        { s.awaiters w with completion := .suspended, progress := .waiting } := ⟨rfl, rfl, fun _ _ => Iff.rfl⟩
    refine ⟨htouch.holds h ⟨.inl ⟨hattached, rfl, hscheduled⟩, hresumes⟩, htouch.quiet (fun payload => ?_) ?_, rfl⟩
    · rw [result, hcompletion]
      exact Iff.rfl
    · rw [hpublished]
      exact ⟨nofun, nofun⟩
  · have heq : s.publishContinuation w =
        s.set w { s.awaiters w with completion := .readyBeforeSuspend r, progress := .continuing } := by
      simp only [publishContinuation, hcompletion, SuspendRaceState.suspend, Bool.false_eq_true, if_false]
    rw [heq]
    have htouch : Touches s
        (s.set w { s.awaiters w with completion := .readyBeforeSuspend r, progress := .continuing }) w
        { s.awaiters w with completion := .readyBeforeSuspend r, progress := .continuing } :=
      ⟨rfl, rfl, fun _ _ => Iff.rfl⟩
    refine ⟨htouch.holds h ⟨hdetached, ⟨r, rfl⟩, hscheduled, hresumes⟩, htouch.quiet (fun payload => ?_) ?_, rfl⟩
    · rw [result, hcompletion]
    · rw [hpublished]
      exact ⟨nofun, nofun⟩

/-- The timer callback completes an attached waiter as the slot does. -/
theorem onTimerCompleted_attached (hw : s.waiter = some w) (expired : Bool) :
    s.onTimerCompleted w expired = s.complete (.outcome (if expired then .timedOut else .workerStopping)) := by
  unfold onTimerCompleted complete
  rw [if_pos hw, hw]
  unfold completeAwaiter detachAll
  dsimp only
  cases (s.awaiters w).completion with
  | pending | suspended | readyBeforeSuspend value | readyAfterSuspend value => rfl

/-- **A wait that suspends**, or was completed before it could. -/
theorem suspend_spec (h : s.Holds) (hpublished : (s.awaiters w).progress = .published) (timed : Bool)
    (schedule : TimerSchedule) :
    (s.suspend w timed schedule).Holds ∧ Quiet s (s.suspend w timed schedule) ∧
      ∀ v, (s.suspend w timed schedule).waiter = some v → s.waiter = some v := by
  have hpublish := publishContinuation_spec h hpublished
  have hsame : ∀ t : WorkerWaits ρ, t.waiter = s.waiter → ∀ v, t.waiter = some v → s.waiter = some v :=
    fun t heq v hv => heq ▸ hv
  unfold suspend
  split
  · rename_i harm
    obtain ⟨hresumes, hscheduled, hphase⟩ := h.attached harm.2
    have hcompletion : (s.awaiters w).completion = .pending := by
      rcases hphase with ⟨_, hpending⟩ | ⟨hwaiting, _⟩
      · exact hpending
      · rw [hpublished] at hwaiting
        cases hwaiting
    cases schedule with
    | scheduled =>
      have harmed : ({ s with timers := update s.timers w true } : WorkerWaits ρ).Holds :=
        ⟨h.terminated, h.consistent⟩
      obtain ⟨hholds, hquiet, hwaiter⟩ := publishContinuation_spec harmed hpublished
      exact ⟨hholds, ⟨hquiet.value, hquiet.resumed⟩, hsame _ hwaiter⟩
    | threw =>
      have htouch : Touches s (s.detachAll.set w { s.detachAll.awaiters w with progress := .threw }) w
          { s.awaiters w with progress := .threw } := touches_detach harm.2 rfl rfl rfl
      refine ⟨htouch.holds h ⟨nofun, hcompletion, hscheduled, hresumes⟩,
        htouch.quiet (fun _ => Iff.rfl) ?_, fun v hv => (by cases hv)⟩
      rw [hpublished]
      exact ⟨nofun, nofun⟩
    | workerStopping =>
      have heq : (s.detachAll.completeAwaiter w (.outcome .workerStopping)).1 =
          s.complete (.outcome .workerStopping) := by
        unfold complete completeAwaiter detachAll
        rw [harm.2]
        dsimp only
        rw [hcompletion]
        rfl
      have hstill : ((s.complete (.outcome .workerStopping)).awaiters w).progress = .published := by
        rw [← heq]
        unfold completeAwaiter detachAll
        rw [hcompletion]
        simpa only [SuspendRaceState.complete, set, update_self] using hpublished
      obtain ⟨hholds, hquiet, hwaiter⟩ := complete_outcome h .workerStopping
      obtain ⟨hholds', hquiet', hwaiter'⟩ := publishContinuation_spec hholds hstill
      rw [heq]
      exact ⟨hholds', hquiet.trans hquiet', fun v hv => by rw [hwaiter', hwaiter] at hv; cases hv⟩
  · exact ⟨hpublish.1, hpublish.2.1, hsame _ hpublish.2.2⟩

/-- **A timer that ends** completes its wait if it is still attached. -/
theorem onTimerCompleted_spec (h : s.Holds) (w : Nat) (expired : Bool) :
    (s.onTimerCompleted w expired).Holds ∧ Quiet s (s.onTimerCompleted w expired) ∧
      ∀ v, (s.onTimerCompleted w expired).waiter = some v → s.waiter = some v := by
  unfold onTimerCompleted
  split
  · rename_i hw
    obtain ⟨hholds, hquiet, hwaiter⟩ := complete_outcome h (if expired then .timedOut else .workerStopping)
    rw [← onTimerCompleted_attached hw, onTimerCompleted, if_pos hw] at hholds hquiet hwaiter
    exact ⟨hholds, hquiet, fun v hv => by rw [hwaiter] at hv; cases hv⟩
  · exact ⟨h, .refl s, fun _ hv => hv⟩

theorem timerFires_spec {expired : Bool} (h : s.Holds) (hfires : s.timerFires w expired = some t) :
    t.Holds ∧ Quiet s t ∧ ∀ v, t.waiter = some v → s.waiter = some v := by
  unfold timerFires at hfires
  split at hfires
  · cases hfires
    obtain ⟨hholds, hquiet, hwaiter⟩ := @onTimerCompleted_spec ρ { s with timers := update s.timers w false }
      ⟨h.terminated, h.consistent⟩ w expired
    exact ⟨hholds, ⟨hquiet.value, hquiet.resumed⟩, hwaiter⟩
  · cases hfires

theorem requestCancellation_spec (h : s.Holds) (w : Nat) :
    (s.requestCancellation w).Holds ∧ Quiet s (s.requestCancellation w) ∧
      ∀ v, (s.requestCancellation w).waiter = some v → s.waiter = some v := by
  unfold requestCancellation
  split
  · obtain ⟨hholds, hquiet, hwaiter⟩ := complete_outcome h .cancelled
    exact ⟨hholds, hquiet, fun v hv => by rw [hwaiter] at hv; cases hv⟩
  · exact ⟨h, .refl s, fun _ hv => hv⟩

theorem stopFires_spec (h : s.Holds) (hfires : s.stopFires w = some t) :
    t.Holds ∧ Quiet s t ∧ ∀ v, t.waiter = some v → s.waiter = some v := by
  unfold stopFires at hfires
  split at hfires
  · cases hfires
    exact requestCancellation_spec h w
  · cases hfires

/-- A wait goes on with the result it was completed with. -/
structure Resumes (s t : WorkerWaits ρ) (w : Nat) (r : WorkerWaitResult ρ) : Prop where
  result : s.result w = some r
  results : ∀ v, t.result v = s.result v
  waiter : t.waiter = s.waiter
  before : (s.awaiters w).progress ≠ .resumed
  resumed : (t.awaiters w).progress = .resumed
  other : ∀ v, v ≠ w → t.awaiters v = s.awaiters v

theorem resumes_set {a : WorkerSingleWaitAwaiter ρ} {r : WorkerWaitResult ρ} (h : s.Holds)
    (hdetached : s.waiter ≠ some w) (hbefore : (s.awaiters w).progress ≠ .resumed)
    (hsame : a.completion = (s.awaiters w).completion) (hresult : a.completion.takeValue = some r)
    (hprogress : a.progress = .resumed) (hscheduled : a.scheduledResumes = 0) (hresumes : a.resumes = 1) :
    (s.set w a).Holds ∧ Resumes s (s.set w a) w r := by
  have htouch : Touches s (s.set w a) w a := ⟨rfl, rfl, fun _ _ => Iff.rfl⟩
  refine ⟨htouch.holds h ?_, ?_, fun v => ?_, rfl, hbefore, ?_, fun v hv => htouch.at_other hv⟩
  · unfold WorkerSingleWaitAwaiter.Consistent
    rw [hprogress]
    exact ⟨hdetached, ⟨r, hresult⟩, hscheduled, hresumes⟩
  · rw [WorkerWaits.result, ← hsame]
    exact hresult
  · by_cases hv : v = w
    · rw [hv, WorkerWaits.result, WorkerWaits.result, htouch.at_self, hsame]
    · rw [WorkerWaits.result, WorkerWaits.result, htouch.at_other hv]
  · rw [htouch.at_self]
    exact hprogress

/-- **A wait that goes on** takes its result, once. -/
theorem awaitResume_spec {r : WorkerWaitResult ρ} (h : s.Holds) (hresume : s.awaitResume w = some (t, r)) :
    t.Holds ∧ Resumes s t w r := by
  have hc := h.consistent w
  unfold WorkerSingleWaitAwaiter.Consistent at hc
  unfold awaitResume at hresume
  dsimp only at hresume
  split at hresume
  iterate 2
    rename_i hprogress
    rw [hprogress] at hc
    obtain ⟨value, hvalue, hpair⟩ := Option.map_eq_some_iff.mp hresume
    cases hpair
    exact resumes_set h hc.1 (by rw [hprogress]; exact AwaitProgress.noConfusion) rfl hvalue rfl hc.2.2.1
      (congrArg (· + 1) hc.2.2.2)
  · rename_i hprogress
    rw [hprogress] at hc
    split at hresume
    · cases hresume
    · rename_i hscheduled
      obtain ⟨value, hvalue, hpair⟩ := Option.map_eq_some_iff.mp hresume
      cases hpair
      rcases hc.1 with hattached | hready
      · exact absurd hattached.2.2 hscheduled
      · exact resumes_set h hready.1 (by rw [hprogress]; exact AwaitProgress.noConfusion) rfl hvalue rfl
          (by rw [hready.2.2]) (congrArg (· + 1) hc.2)
  all_goals cases hresume

/-! ## Every wait goes on once -/

/-- A wait that was started and has not ended is attached, may go on now, or will when it tries to suspend. -/
def Lively (s : WorkerWaits ρ) (w : Nat) : Prop :=
  s.waiter = some w ∨ (s.awaitResume w).isSome = true ∨
    (s.awaiters w).progress = .published ∧ (s.result w).isSome = true

/-- **No wait is lost, and none goes on twice.** -/
theorem Holds.once (h : s.Holds) (w : Nat) :
    (s.awaiters w).resumes ≤ 1 ∧ (s.awaiters w).scheduledResumes ≤ 1 ∧
      ((s.awaiters w).resumes = 1 ↔ (s.awaiters w).progress = .resumed) ∧
      ((s.awaiters w).progress = .cold ∨ (s.awaiters w).progress = .resumed ∨ (s.awaiters w).progress = .threw ∨
        s.Lively w) := by
  have hc := h.consistent w
  unfold WorkerSingleWaitAwaiter.Consistent at hc
  unfold Lively awaitResume result
  cases hprogress : (s.awaiters w).progress <;> rw [hprogress] at hc <;> simp only at hc
  · obtain ⟨_, _, hscheduled, hresumes⟩ := hc
    simp [hprogress, hscheduled, hresumes]
  · obtain ⟨_, ⟨r, hr⟩, hscheduled, hresumes⟩ := hc
    simp [hprogress, hscheduled, hresumes, hr, SuspendRaceState.takeValue]
  · obtain ⟨hphase, hscheduled, hresumes⟩ := hc
    rcases hphase with ⟨hattached, _⟩ | ⟨_, r, hr⟩
    · simp [hprogress, hscheduled, hresumes, hattached]
    · simp [hprogress, hscheduled, hresumes, hr, SuspendRaceState.takeValue]
  · obtain ⟨hphase, hresumes⟩ := hc
    rcases hphase with ⟨hattached, _, hscheduled⟩ | ⟨_, ⟨r, hr⟩, hscheduled⟩
    · simp [hprogress, hscheduled, hresumes, hattached]
    · simp [hprogress, hscheduled, hresumes, hr, SuspendRaceState.takeValue]
  · obtain ⟨_, ⟨r, hr⟩, hscheduled, hresumes⟩ := hc
    simp [hprogress, hscheduled, hresumes, hr, SuspendRaceState.takeValue]
  · obtain ⟨_, _, hscheduled, hresumes⟩ := hc
    simp [hprogress, hscheduled, hresumes]
  · obtain ⟨_, _, hscheduled, hresumes⟩ := hc
    simp [hprogress, hscheduled, hresumes]

end WorkerWaits

end Ruvia.Core
