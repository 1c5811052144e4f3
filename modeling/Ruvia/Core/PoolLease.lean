import Ruvia.Core.WorkerWait
import Ruvia.Library.StateMachine
import Mathlib.Data.List.Nodup

/-!
# `Core.PoolLease` — slots of a pool, leased on one worker

`pool_lease_scheduler`, `pool_lease_acquire` and `pool_waiter_queue`. Everything runs on the worker, so an action is
what runs there without a pause: a whole `co_await` up to its suspension, a timer or stop callback, a posted task, a
`release`, a `close`. A continuation is counted as scheduled once it was handed to the worker or is resumed in place,
and going on is an action of its own. Acquires are numbered; the intrusive queue is a list of them.
-/

namespace Ruvia.Core

open Library Function

/-- How far an acquire has come. -/
inductive LeaseProgress where
  | cold
  /-- Completed without suspending, in front of `await_resume`. -/
  | ready
  | suspended
  | resumed
  /-- Arming the deadline threw. -/
  | threw
  | destroyed
  deriving DecidableEq, Repr

/-- `pool_lease_acquire`. `scheduledResumes` counts the resumptions under way, `resumes` the times the coroutine went
on; `released` says that the slot it got was given back. -/
structure PoolLeaseAcquire where
  progress : LeaseProgress := .cold
  result : Option (WorkerWaitResult Nat) := none
  waiterId : Nat := 0
  continuation : Bool := false
  queued : Bool := false
  deadlineTimer : Bool := false
  stopRegistration : Bool := false
  scheduledResumes : Nat := 0
  resumes : Nat := 0
  released : Bool := false

/-- What the deadline of a suspending acquire meets. -/
inductive LeaseTimeout where
  | unlimited
  /-- Not positive; `timersStopping` tells whether the timer queue has stopped. -/
  | elapsed (timersStopping : Bool)
  | positive (schedule : TimerSchedule)
  deriving DecidableEq, Repr

/-- What the stop token of an acquire says: before it is awaited, and once its callback is to be registered. -/
inductive LeaseStop where
  | unstoppable
  | stoppable (requested requestedMeanwhile : Bool)
  deriving DecidableEq, Repr

def LeaseStop.stopRequested : LeaseStop → Bool
  | .unstoppable => false
  | .stoppable requested _ => requested

/-- `pool_lease_scheduler::impl_type` with its queue, its acquires and the cancellations posted to the worker by
waiter id. `freeSlots` has the end of the vector in front; `enqueued` records the order of the waiters. -/
structure PoolLeases where
  poolSize : Nat
  freeSlots : List Nat
  busy : Nat → Bool := fun _ => false
  queue : List Nat := []
  acquires : Nat → PoolLeaseAcquire := fun _ => {}
  nextWaiterId : Nat := 0
  cancellations : List Nat := []
  closing : Bool := false
  terminated : Bool := false
  enqueued : List Nat := []

inductive PoolLeaseAction where
  | await (k : Nat) (timeout : LeaseTimeout) (stop : LeaseStop)
  | timer (k : Nat) (expired : Bool)
  | stopCallback (k : Nat) (onWorker attached : Bool)
  | runCancellation
  | awaitResume (k : Nat)
  | release (k : Nat)
  | retire (k : Nat)
  | close

namespace PoolLeases

/-- The constructor: the slots are pushed in order. -/
def init (poolSize : Nat) : PoolLeases := { poolSize, freeSlots := (List.range poolSize).reverse }

variable (s : PoolLeases)

def set (k : Nat) (acquire : PoolLeaseAcquire) : PoolLeases :=
  { s with acquires := update s.acquires k acquire }

/-- `try_acquire`; `none` for a saturated pool. -/
def tryAcquire (stopRequested : Bool) : Option (PoolLeases × WorkerWaitResult Nat) :=
  if s.closing then some (s, .outcome .closed)
  else if stopRequested then some (s, .outcome .cancelled)
  else
    match s.freeSlots with
    | [] => none
    | slot :: freeSlots => some ({ s with freeSlots, busy := update s.busy slot true }, .value slot)

/-- `next_waiter_id`: the next nonzero value of a 64-bit counter. -/
def reserveWaiterId : PoolLeases × Nat :=
  let next := (s.nextWaiterId + 1) % 2 ^ 64
  let next := if next = 0 then 1 else next
  ({ s with nextWaiterId := next }, next)

def enqueue (k : Nat) : PoolLeases :=
  { s.set k { s.acquires k with queued := true } with queue := s.queue ++ [k], enqueued := s.enqueued ++ [k] }

/-- `pool_waiter_queue::remove`. -/
def remove (k : Nat) : PoolLeases :=
  if (s.acquires k).queued then { s.set k { s.acquires k with queued := false } with queue := s.queue.erase k }
  else s

/-- `pool_lease_acquire::complete`. -/
def complete (k : Nat) (result : WorkerWaitResult Nat) : PoolLeases :=
  if (s.acquires k).result.isSome then { s with terminated := true }
  else s.set k { s.acquires k with result := some result }

def cancelRegistrations (k : Nat) : PoolLeases :=
  (s.set k { s.acquires k with deadlineTimer := false, stopRegistration := false }).remove k

/-- `take_continuation`, and the resumption of what it took. -/
def resumeContinuation (k : Nat) : PoolLeases :=
  if (s.acquires k).continuation then
    s.set k
      { s.acquires k with
        continuation := false
        scheduledResumes := (s.acquires k).scheduledResumes + 1 }
  else s

/-- `commit_handoff`; `none` for an empty queue. -/
def commitHandoff (slot : Nat) : Option PoolLeases :=
  match s.queue with
  | [] => none
  | k :: _ => some ((((s.remove k).complete k (.value slot)).cancelRegistrations k).resumeContinuation k)

/-- `commit_cancellation` with the resumption behind it. -/
def cancel (k : Nat) : PoolLeases :=
  if (s.acquires k).queued then
    let s := s.remove k
    let s := s.set k { s.acquires k with deadlineTimer := false }
    (s.complete k (.outcome .cancelled)).resumeContinuation k
  else s

/-- `cancel` of a waiter id. -/
def cancelId (waiterId : Nat) : PoolLeases :=
  match s.queue.find? fun k => (s.acquires k).waiterId = waiterId with
  | none => s
  | some k => s.cancel k

def expire (k : Nat) : PoolLeases :=
  if (s.acquires k).queued then
    (((s.remove k).complete k (.outcome .timedOut)).cancelRegistrations k).resumeContinuation k
  else s

/-- The rounds of `close_all`, one for each waiter at most. -/
def closeAll : Nat → PoolLeases → PoolLeases
  | 0, s => s
  | n + 1, s =>
    match s.queue with
    | [] => s
    | k :: _ =>
      closeAll n ((((s.remove k).complete k (.outcome .closed)).cancelRegistrations k).resumeContinuation k)

/-- `await_suspend`. A stop that was requested meanwhile runs its callback in place. -/
def awaitSuspend (k : Nat) (timeout : LeaseTimeout) (stop : LeaseStop) : PoolLeases :=
  let (s, waiterId) := s.reserveWaiterId
  let s := (s.set k { s.acquires k with waiterId }).enqueue k
  let s :=
    match timeout with
    | .unlimited | .elapsed true | .positive .workerStopping | .positive .threw => s
    | .elapsed false => s.complete k (.outcome .timedOut)
    | .positive .scheduled => s.set k { s.acquires k with deadlineTimer := true }
  if timeout = .positive .threw then
    let s := s.remove k
    s.set k { s.acquires k with progress := .threw }
  else
    let s :=
      match stop with
      | .unstoppable => s
      | .stoppable _ requestedMeanwhile =>
        if (s.acquires k).result.isSome then s
        else if requestedMeanwhile then s.cancel k
        else s.set k { s.acquires k with stopRegistration := true }
    if (s.acquires k).result.isSome then
      let s := s.cancelRegistrations k
      s.set k { s.acquires k with progress := .ready }
    else s.set k { s.acquires k with continuation := true, progress := .suspended }

/-- `co_await` of an acquire, up to its suspension. -/
def await (k : Nat) (timeout : LeaseTimeout) (stop : LeaseStop) : PoolLeases :=
  match s.tryAcquire stop.stopRequested with
  | some (s, result) => s.set k { s.acquires k with result := some result, progress := .ready }
  | none => s.awaitSuspend k timeout stop

/-- The deadline timer of an acquire ends; only an expiry does something. -/
def timer (k : Nat) (expired : Bool) : PoolLeases :=
  let s := s.set k { s.acquires k with deadlineTimer := false }
  if expired then s.expire k else s

/-- `request_cancellation`, from the stop callback of an acquire, which runs once. -/
def stopCallback (k : Nat) (onWorker attached : Bool) : PoolLeases :=
  let s := s.set k { s.acquires k with stopRegistration := false }
  if onWorker then s.cancel k
  else if attached then { s with cancellations := s.cancellations ++ [(s.acquires k).waiterId] }
  else s

/-- `await_resume`. -/
def awaitResume (k : Nat) : PoolLeases :=
  let s := s.cancelRegistrations k
  let acquire := s.acquires k
  match acquire.result with
  | none => { s with terminated := true }
  | some _ =>
    s.set k
      { acquire with
        progress := .resumed
        resumes := acquire.resumes + 1
        scheduledResumes := acquire.scheduledResumes - 1 }

/-- `release` of a slot. -/
def releaseSlot (slot : Nat) : PoolLeases :=
  if s.poolSize ≤ slot ∨ s.busy slot = false then { s with terminated := true }
  else
    let freed := { s with busy := update s.busy slot false, freeSlots := slot :: s.freeSlots }
    if s.closing then freed else (s.commitHandoff slot).getD freed

/-- `close`. -/
def close : PoolLeases :=
  if s.closing then s else closeAll s.queue.length { s with closing := true }

/-- One action. A coroutine goes on once its acquire is complete; the owner of a slot is the coroutine that got it from
`await_resume`, and gives it back once. An acquire whose continuation is under way is not destroyed. -/
def step : PoolLeaseAction → Option PoolLeases
  | .await k timeout stop => if (s.acquires k).progress = .cold then some (s.await k timeout stop) else none
  | .timer k expired => if (s.acquires k).deadlineTimer then some (s.timer k expired) else none
  | .stopCallback k onWorker attached =>
    if (s.acquires k).stopRegistration then some (s.stopCallback k onWorker attached) else none
  | .runCancellation =>
    match s.cancellations with
    | [] => none
    | waiterId :: cancellations => some ({ s with cancellations }.cancelId waiterId)
  | .awaitResume k =>
    if (s.acquires k).progress = .ready ∨
        (s.acquires k).progress = .suspended ∧ (s.acquires k).scheduledResumes ≠ 0 then
      some (s.awaitResume k)
    else none
  | .release k =>
    match (s.acquires k).result with
    | some (.value slot) =>
      if (s.acquires k).resumes = 1 ∧ (s.acquires k).released = false then
        some ((s.set k { s.acquires k with released := true }).releaseSlot slot)
      else none
    | _ => none
  | .retire k =>
    if (s.acquires k).progress = .destroyed ∨ (s.acquires k).progress = .ready ∨
        (s.acquires k).scheduledResumes ≠ 0 then
      none
    else
      let s := s.cancelRegistrations k
      some (s.set k { s.acquires k with progress := .destroyed })
  | .close => some s.close

end PoolLeases

/-- The runs of one scheduler. -/
def poolLeaseMachine (poolSize : Nat) : StateMachine PoolLeases PoolLeaseAction where
  init s := s = PoolLeases.init poolSize
  step := PoolLeases.step

/-! ## What every state keeps -/

/-- **An acquire is of a piece**: it is queued without a result, or has one and exactly one way on, or went on. -/
def PoolLeaseAcquire.Consistent (a : PoolLeaseAcquire) : Prop :=
  (match a.progress with
    | .cold | .threw =>
      a.queued = false ∧ a.result = none ∧ a.continuation = false ∧ a.scheduledResumes = 0 ∧ a.resumes = 0
    | .ready =>
      a.queued = false ∧ a.result.isSome = true ∧ a.continuation = false ∧ a.scheduledResumes = 0 ∧ a.resumes = 0
    | .suspended =>
      (a.queued = true ∧ a.result = none ∧ a.continuation = true ∧ a.scheduledResumes = 0 ∨
          a.queued = false ∧ a.result.isSome = true ∧ a.continuation = false ∧ a.scheduledResumes = 1) ∧
        a.resumes = 0
    | .resumed =>
      a.queued = false ∧ a.result.isSome = true ∧ a.continuation = false ∧ a.scheduledResumes = 0 ∧ a.resumes = 1
    | .destroyed =>
      a.queued = false ∧ a.scheduledResumes = 0 ∧
        (a.result = none ∧ a.resumes = 0 ∨ a.result.isSome = true ∧ a.resumes = 1)) ∧
    a.result ≠ some (.outcome .workerStopping) ∧ (a.released = true → a.resumes = 1)

/-- The queue and the acquires agree. -/
structure WaitersAgree (acquires : Nat → PoolLeaseAcquire) (queue enqueued : List Nat) : Prop where
  nodup : queue.Nodup
  queued : ∀ k, (acquires k).queued = true ↔ k ∈ queue
  consistent : ∀ k, (acquires k).Consistent
  order : queue.Sublist enqueued
  once : enqueued.Nodup
  started : ∀ k ∈ enqueued, (acquires k).progress ≠ .cold

/-- The acquire got the slot, and its owner has not given it back. -/
def Leases (acquires : Nat → PoolLeaseAcquire) (k slot : Nat) : Prop :=
  (acquires k).result = some (.value slot) ∧ (acquires k).released = false

/-- **Every slot is free, or leased by one acquire.** -/
structure SlotsAgree (poolSize : Nat) (freeSlots : List Nat) (busy : Nat → Bool) (leases : Nat → Nat → Prop) :
    Prop where
  nodup : freeSlots.Nodup
  bound : ∀ slot ∈ freeSlots, slot < poolSize
  leasedOut : ∀ slot, busy slot = true ↔ slot < poolSize ∧ slot ∉ freeSlots
  leased : ∀ k slot, leases k slot → busy slot = true
  held : ∀ slot, busy slot = true → ∃ k, leases k slot
  unique : ∀ j k slot, leases j slot → leases k slot → j = k

namespace PoolLeases

/-- **The invariant of the scheduler.** -/
structure Holds (s : PoolLeases) : Prop where
  waiters : WaitersAgree s.acquires s.queue s.enqueued
  slots : SlotsAgree s.poolSize s.freeSlots s.busy (Leases s.acquires)
  saturated : s.queue ≠ [] → s.freeSlots = [] ∧ s.closing = false
  terminated : s.terminated = false

/-- **What one step can do to the results**: none is replaced, and a slot is granted to an acquire that finds no one
waiting, or by its last owner to the longest waiting one. -/
structure Follows (s t : PoolLeases) : Prop where
  poolSize : t.poolSize = s.poolSize
  kept : ∀ k r, (s.acquires k).result = some r → (t.acquires k).result = some r
  released : ∀ k, (s.acquires k).released = true → (t.acquires k).released = true
  granted : ∀ k slot, (t.acquires k).result = some (.value slot) →
    (s.acquires k).result = some (.value slot) ∨
      s.queue = [] ∧ s.closing = false ∧ slot ∈ s.freeSlots ∨
      s.queue.head? = some k ∧ ∃ j, Leases s.acquires j slot ∧ (t.acquires j).released = true

end PoolLeases

/-! ## The queue -/

namespace WaitersAgree

variable {acquires : Nat → PoolLeaseAcquire} {queue enqueued : List Nat} {k : Nat} {a : PoolLeaseAcquire}

section

variable (h : WaitersAgree acquires queue enqueued)
include h

theorem started_update (hcold : a.progress = .cold → (acquires k).progress = .cold) :
    ∀ j ∈ enqueued, (update acquires k a j).progress ≠ .cold := by
  intro j hj
  by_cases hk : j = k
  · rw [hk, update_self]
    exact fun heq => h.started j hj (hk ▸ hcold heq)
  · rw [update_of_ne hk]
    exact h.started j hj

theorem consistent_update (ha : a.Consistent) (j : Nat) : (update acquires k a j).Consistent := by
  by_cases hk : j = k
  · rw [hk, update_self]
    exact ha
  · rw [update_of_ne hk]
    exact h.consistent j

/-- An acquire changes where it is. -/
theorem replace (ha : a.Consistent) (hqueued : a.queued = (acquires k).queued)
    (hcold : a.progress = .cold → (acquires k).progress = .cold) :
    WaitersAgree (update acquires k a) queue enqueued := by
  refine ⟨h.nodup, fun j => ?_, h.consistent_update ha, h.order, h.once, h.started_update hcold⟩
  by_cases hk : j = k
  · rw [hk, update_self, hqueued]
    exact h.queued k
  · rw [update_of_ne hk]
    exact h.queued j

/-- An acquire leaves the queue. -/
theorem leave (ha : a.Consistent) (hqueued : a.queued = false)
    (hcold : a.progress = .cold → (acquires k).progress = .cold) :
    WaitersAgree (update acquires k a) (queue.erase k) enqueued := by
  refine ⟨h.nodup.erase k, fun j => ?_, h.consistent_update ha, List.erase_sublist.trans h.order, h.once,
    h.started_update hcold⟩
  rw [h.nodup.mem_erase_iff]
  by_cases hk : j = k
  · rw [hk, update_self, hqueued]
    simp
  · rw [update_of_ne hk]
    exact (h.queued j).trans ⟨fun hj => ⟨hk, hj⟩, fun hj => hj.2⟩

section

variable (hcold : (acquires k).progress = .cold)
include hcold

theorem not_enqueued :
    k ∉ enqueued := fun hmem => h.started k hmem hcold

theorem not_queued : k ∉ queue :=
  fun hmem => h.not_enqueued hcold (h.order.subset hmem)

theorem once_concat : (enqueued ++ [k]).Nodup := by
  rw [List.nodup_append]
  refine ⟨h.once, List.nodup_singleton k, ?_⟩
  rintro j hj k' hk' rfl
  obtain rfl := List.mem_singleton.mp hk'
  exact h.not_enqueued hcold hj

end

theorem started_concat (ha : a.progress ≠ .cold) :
    ∀ j ∈ enqueued ++ [k], (update acquires k a j).progress ≠ .cold := by
  intro j hj
  by_cases hk : j = k
  · rw [hk, update_self]
    exact ha
  · rw [update_of_ne hk]
    refine h.started j ((List.mem_append.mp hj).resolve_right fun hmem => hk (List.mem_singleton.mp hmem))

/-- An acquire starts to wait. -/
theorem join (hcold : (acquires k).progress = .cold) (ha : a.Consistent) (hqueued : a.queued = true)
    (hprogress : a.progress ≠ .cold) :
    WaitersAgree (update acquires k a) (queue ++ [k]) (enqueued ++ [k]) := by
  refine ⟨?_, fun j => ?_, h.consistent_update ha, h.order.append (List.Sublist.refl [k]), h.once_concat hcold,
    h.started_concat hprogress⟩
  · exact (h.order.append (List.Sublist.refl [k])).nodup (h.once_concat hcold)
  · rw [List.mem_append, List.mem_singleton]
    by_cases hk : j = k
    · rw [hk, update_self, hqueued]
      simp
    · rw [update_of_ne hk]
      exact (h.queued j).trans ⟨.inl, fun hj => hj.resolve_right hk⟩

/-- An acquire that would wait ends before it does. -/
theorem pass (hcold : (acquires k).progress = .cold) (ha : a.Consistent) (hqueued : a.queued = false)
    (hprogress : a.progress ≠ .cold) :
    WaitersAgree (update acquires k a) queue (enqueued ++ [k]) := by
  refine ⟨h.nodup, fun j => ?_, h.consistent_update ha, h.order.trans (List.sublist_append_left _ _),
    h.once_concat hcold, h.started_concat hprogress⟩
  by_cases hk : j = k
  · rw [hk, update_self, hqueued]
    exact ⟨nofun, fun hmem => absurd hmem (h.not_queued hcold)⟩
  · rw [update_of_ne hk]
    exact h.queued j

/-- A queued acquire is suspended without a result. -/
theorem waiting (hmem : k ∈ queue) :
    (acquires k).progress = .suspended ∧ (acquires k).queued = true ∧ (acquires k).result = none ∧
      (acquires k).continuation = true ∧ (acquires k).scheduledResumes = 0 ∧ (acquires k).resumes = 0 ∧
      (acquires k).released = false := by
  have hqueued := (h.queued k).mpr hmem
  obtain ⟨hphase, -, hreleased⟩ := h.consistent k
  have hfalse : (acquires k).queued ≠ false := by
    rw [hqueued]
    exact Bool.noConfusion
  split at hphase
  · exact absurd hphase.1 hfalse
  · exact absurd hphase.1 hfalse
  · exact absurd hphase.1 hfalse
  · rename_i hprogress
    rcases hphase.1 with hwaits | hended
    · refine ⟨hprogress, hqueued, hwaits.2.1, hwaits.2.2.1, hwaits.2.2.2, hphase.2, ?_⟩
      exact Bool.eq_false_iff.mpr fun htrue => by
        have := hreleased htrue
        omega
    · exact absurd hended.1 hfalse
  · exact absurd hphase.1 hfalse
  · exact absurd hphase.1 hfalse

end

end WaitersAgree

/-! ## The slots -/

namespace SlotsAgree

variable {poolSize slot k w : Nat} {freeSlots : List Nat} {busy : Nat → Bool} {leases leases' : Nat → Nat → Prop}

theorem congr (h : SlotsAgree poolSize freeSlots busy leases) (hsame : ∀ j x, leases' j x ↔ leases j x) :
    SlotsAgree poolSize freeSlots busy leases' := by
  obtain rfl : leases' = leases := funext fun j => funext fun x => propext (hsame j x)
  exact h

/-- A free slot is leased. -/
theorem take (h : SlotsAgree poolSize (slot :: freeSlots) busy leases)
    (hleases : ∀ j x, leases' j x ↔ leases j x ∨ j = k ∧ x = slot) :
    SlotsAgree poolSize freeSlots (update busy slot true) leases' := by
  have hfree : slot ∉ freeSlots := (List.nodup_cons.mp h.nodup).1
  have hidle : ¬ busy slot = true := fun hbusy => ((h.leasedOut slot).mp hbusy).2 List.mem_cons_self
  have hbusy : ∀ x, update busy slot true x = true ↔ x = slot ∨ busy x = true := by
    intro x
    by_cases hx : x = slot <;> simp [hx]
  refine ⟨(List.nodup_cons.mp h.nodup).2, fun x hx => h.bound x (List.mem_cons_of_mem _ hx), fun x => ?_,
    fun j x hj => ?_, fun x hx => ?_, fun i j x hi hj => ?_⟩
  · rw [hbusy, h.leasedOut, List.mem_cons]
    constructor
    · rintro (rfl | ⟨hlt, hx⟩)
      · exact ⟨h.bound x List.mem_cons_self, hfree⟩
      · exact ⟨hlt, fun hmem => hx (.inr hmem)⟩
    · rintro ⟨hlt, hx⟩
      by_cases heq : x = slot
      · exact .inl heq
      · exact .inr ⟨hlt, fun hmem => hmem.elim heq hx⟩
  · rw [hbusy]
    rcases (hleases j x).mp hj with hold | ⟨-, hx⟩
    · exact .inr (h.leased j x hold)
    · exact .inl hx
  · rcases (hbusy x).mp hx with rfl | hold
    · exact ⟨k, (hleases k x).mpr (.inr ⟨rfl, rfl⟩)⟩
    · obtain ⟨j, hj⟩ := h.held x hold
      exact ⟨j, (hleases j x).mpr (.inl hj)⟩
  · rcases (hleases i x).mp hi with hi | ⟨rfl, rfl⟩
    · rcases (hleases j x).mp hj with hj | ⟨rfl, rfl⟩
      · exact h.unique i j x hi hj
      · exact absurd (h.leased i x hi) hidle
    · rcases (hleases j x).mp hj with hj | ⟨rfl, -⟩
      · exact absurd (h.leased j x hj) hidle
      · rfl

/-- A leased slot is given back. -/
theorem give (h : SlotsAgree poolSize freeSlots busy leases) (hleased : leases k slot)
    (hleases : ∀ j x, leases' j x ↔ leases j x ∧ ¬ (j = k ∧ x = slot)) :
    SlotsAgree poolSize (slot :: freeSlots) (update busy slot false) leases' := by
  have hslot := (h.leasedOut slot).mp (h.leased k slot hleased)
  have hbusy : ∀ x, update busy slot false x = true ↔ x ≠ slot ∧ busy x = true := by
    intro x
    by_cases hx : x = slot <;> simp [hx]
  refine ⟨List.nodup_cons.mpr ⟨hslot.2, h.nodup⟩, fun x hx => ?_, fun x => ?_, fun j x hj => ?_, fun x hx => ?_,
    fun i j x hi hj => h.unique i j x ((hleases i x).mp hi).1 ((hleases j x).mp hj).1⟩
  · rcases List.mem_cons.mp hx with rfl | hx
    · exact hslot.1
    · exact h.bound x hx
  · rw [hbusy, h.leasedOut, List.mem_cons, not_or]
    exact ⟨fun ⟨hne, hlt, hx⟩ => ⟨hlt, hne, hx⟩, fun ⟨hlt, hne, hx⟩ => ⟨hne, hlt, hx⟩⟩
  · obtain ⟨hj, hne⟩ := (hleases j x).mp hj
    refine (hbusy x).mpr ⟨?_, h.leased j x hj⟩
    rintro rfl
    exact hne ⟨h.unique j k x hj hleased, rfl⟩
  · obtain ⟨hne, hx⟩ := (hbusy x).mp hx
    obtain ⟨j, hj⟩ := h.held x hx
    exact ⟨j, (hleases j x).mpr ⟨hj, fun heq => hne heq.2⟩⟩

/-- A leased slot changes its owner. -/
theorem handOver (h : SlotsAgree poolSize freeSlots busy leases) (hleased : leases k slot)
    (hleases : ∀ j x, leases' j x ↔ leases j x ∧ ¬ (j = k ∧ x = slot) ∨ j = w ∧ x = slot) :
    SlotsAgree poolSize freeSlots busy leases' := by
  have hbusy := h.leased k slot hleased
  refine ⟨h.nodup, h.bound, h.leasedOut, fun j x hj => ?_, fun x hx => ?_, fun i j x hi hj => ?_⟩
  · rcases (hleases j x).mp hj with hold | ⟨-, rfl⟩
    · exact h.leased j x hold.1
    · exact hbusy
  · obtain ⟨j, hj⟩ := h.held x hx
    by_cases heq : j = k ∧ x = slot
    · exact ⟨w, (hleases w x).mpr (.inr ⟨rfl, heq.2⟩)⟩
    · exact ⟨j, (hleases j x).mpr (.inl ⟨hj, heq⟩)⟩
  · rcases (hleases i x).mp hi with ⟨hi, hine⟩ | ⟨rfl, rfl⟩
    · rcases (hleases j x).mp hj with ⟨hj, -⟩ | ⟨rfl, rfl⟩
      · exact h.unique i j x hi hj
      · exact absurd ⟨h.unique i k x hi hleased, rfl⟩ hine
    · rcases (hleases j x).mp hj with ⟨hj, hjne⟩ | ⟨rfl, -⟩
      · exact absurd ⟨h.unique j k x hj hleased, rfl⟩ hjne
      · rfl

end SlotsAgree

/-! ## What an operation does -/

/-- A suspended acquire got its result, and its continuation is under way. -/
structure PoolLeaseAcquire.Ended (a : PoolLeaseAcquire) (r : WorkerWaitResult Nat) : Prop where
  progress : a.progress = .suspended
  queued : a.queued = false
  result : a.result = some r
  continuation : a.continuation = false
  scheduledResumes : a.scheduledResumes = 1
  resumes : a.resumes = 0
  released : a.released = false

theorem PoolLeaseAcquire.Ended.consistent {a : PoolLeaseAcquire} {r : WorkerWaitResult Nat} (h : a.Ended r)
    (hstatus : r ≠ .outcome .workerStopping) : a.Consistent := by
  unfold PoolLeaseAcquire.Consistent
  rw [h.progress, h.result]
  refine ⟨⟨.inr ⟨h.queued, rfl, h.continuation, h.scheduledResumes⟩, h.resumes⟩, ?_, ?_⟩
  · exact fun heq => hstatus (Option.some.inj heq)
  · rw [h.released]
    exact nofun

namespace PoolLeases

variable {s t : PoolLeases} {k : Nat} {a : PoolLeaseAcquire}

theorem finish_spec (h : WaitersAgree s.acquires s.queue s.enqueued) (hmem : k ∈ s.queue)
    (r : WorkerWaitResult Nat) :
    ∃ a, a.Ended r ∧ (((s.remove k).complete k r).cancelRegistrations k).resumeContinuation k =
      { s.set k a with queue := s.queue.erase k } := by
  obtain ⟨hprogress, hqueued, hresult, hcontinuation, hscheduled, hresumes, hreleased⟩ := h.waiting hmem
  refine ⟨{ s.acquires k with
      queued := false, result := some r, deadlineTimer := false, stopRegistration := false, continuation := false,
      scheduledResumes := 1 }, ⟨hprogress, rfl, rfl, rfl, rfl, hresumes, hreleased⟩, ?_⟩
  simp only [remove, complete, cancelRegistrations, resumeContinuation, set, update_self,
    update_idem, hqueued, hresult, hcontinuation, hscheduled, Option.isSome_none, Bool.false_eq_true,
    if_true, if_false]

theorem cancel_spec (h : WaitersAgree s.acquires s.queue s.enqueued) (hmem : k ∈ s.queue) :
    ∃ a, a.Ended (.outcome .cancelled) ∧ s.cancel k = { s.set k a with queue := s.queue.erase k } := by
  obtain ⟨hprogress, hqueued, hresult, hcontinuation, hscheduled, hresumes, hreleased⟩ := h.waiting hmem
  refine ⟨{ s.acquires k with
      queued := false, result := some (.outcome .cancelled), deadlineTimer := false, continuation := false,
      scheduledResumes := 1 }, ⟨hprogress, rfl, rfl, rfl, rfl, hresumes, hreleased⟩, ?_⟩
  simp only [cancel, remove, complete, resumeContinuation, set, update_self, update_idem, hqueued,
    hresult, hcontinuation, hscheduled, Option.isSome_none, Bool.false_eq_true, if_true, if_false]

/-- What `await_suspend` can make of an acquire. -/
structure Suspends (s t : PoolLeases) (k : Nat) (a : PoolLeaseAcquire) : Prop where
  consistent : a.Consistent
  progress : a.progress ≠ .cold
  released : a.released = false
  result : ∀ slot, a.result ≠ some (.value slot)
  state : ∃ nextWaiterId queue,
    t = { s with
      nextWaiterId
      acquires := update s.acquires k a
      queue
      enqueued := s.enqueued ++ [k] } ∧
      (a.queued = true ∧ queue = s.queue ++ [k] ∨ a.queued = false ∧ queue = s.queue)

theorem awaitSuspend_spec (h : WaitersAgree s.acquires s.queue s.enqueued) (hcold : (s.acquires k).progress = .cold)
    (timeout : LeaseTimeout) (stop : LeaseStop) : ∃ a, Suspends s (s.awaitSuspend k timeout stop) k a := by
  have hnot := h.not_queued hcold
  obtain ⟨hphase, -, hreleased⟩ := h.consistent k
  rw [hcold] at hphase
  obtain ⟨hqueued, hresult, hcontinuation, hscheduled, hresumes⟩ := hphase
  have hfree : (s.acquires k).released = false :=
    Bool.eq_false_iff.mpr fun htrue => by
      have := hreleased htrue
      omega
  have herase : (s.queue ++ [k]).erase k = s.queue := by
    rw [List.erase_append_right _ hnot, List.erase_cons_head, List.append_nil]
  rcases timeout with _ | (_ | _) | (_ | _ | _) <;> rcases stop with _ | ⟨_, _ | _⟩
  all_goals
    simp only [awaitSuspend, reserveWaiterId, enqueue, remove, complete, cancel, resumeContinuation,
      cancelRegistrations, set, update_self, update_idem, hqueued, hresult, hcontinuation,
        hscheduled, herase,
      Option.isSome_none, Option.isSome_some, Bool.false_eq_true, if_true, if_false, reduceCtorEq]
    refine ⟨_, ?_, ?_, ?_, ?_, _, _, rfl, ?_⟩
    all_goals simp [PoolLeaseAcquire.Consistent, hfree, hresumes]

/-! ## Leases and results -/

variable {acquires : Nat → PoolLeaseAcquire}

theorem leases_update (j slot : Nat) :
    Leases (update acquires k a) j slot ↔
      j = k ∧ a.result = some (.value slot) ∧ a.released = false ∨ j ≠ k ∧ Leases acquires j slot := by
  unfold Leases
  by_cases hj : j = k
  · rw [hj, update_self]
    simp
  · rw [update_of_ne hj]
    simp [hj]

/-- An acquire without a slot, before and behind. -/
theorem leases_aside (hbefore : ∀ slot, (acquires k).result ≠ some (.value slot))
    (hafter : ∀ slot, a.result ≠ some (.value slot)) (j slot : Nat) :
    Leases (update acquires k a) j slot ↔ Leases acquires j slot := by
  rw [leases_update]
  by_cases hj : j = k
  · subst hj
    simp [Leases, hbefore, hafter]
  · simp [hj]

/-- An acquire that keeps its result and its slot. -/
theorem leases_keep (hresult : a.result = (acquires k).result) (hreleased : a.released = (acquires k).released)
    (j slot : Nat) :
    Leases (update acquires k a) j slot ↔ Leases acquires j slot := by
  rw [leases_update, hresult, hreleased]
  by_cases hj : j = k
  · subst hj
    simp [Leases]
  · simp [hj]

theorem follows_update (hpoolSize : t.poolSize = s.poolSize) (hacquires : t.acquires = update s.acquires k a)
    (hkept : ∀ r, (s.acquires k).result = some r → a.result = some r)
    (hreleased : (s.acquires k).released = true → a.released = true)
    (hgranted : ∀ slot, a.result = some (.value slot) → (s.acquires k).result = some (.value slot) ∨ s.queue = [] ∧ s.closing = false ∧ slot ∈ s.freeSlots) :
    Follows s t := by
  refine ⟨hpoolSize, fun j r => ?_, fun j => ?_, fun j slot => ?_⟩
  all_goals
    rw [hacquires]
    by_cases hj : j = k
    · rw [hj, update_self]
      first
        | exact hkept r
        | exact hreleased
        | exact fun hslot => (hgranted slot hslot).imp_right .inl
    · rw [update_of_ne hj]
      first
        | exact id
        | exact .inl

theorem Follows.refl (s : PoolLeases) : Follows s s := ⟨rfl, fun _ _ => id, fun _ => id, fun _ _ => .inl⟩

/-! ## Acquiring -/

/-- An acquire changes, without a slot before or behind. -/
theorem Holds.aside (h : s.Holds) (hacquires : t.acquires = update s.acquires k a)
    (hwaiters : WaitersAgree (update s.acquires k a) t.queue t.enqueued) (hbefore : (s.acquires k).result = none)
    (hreleased : (s.acquires k).released = false) (hafter : ∀ slot, a.result ≠ some (.value slot))
    (hslots : t.poolSize = s.poolSize ∧ t.freeSlots = s.freeSlots ∧ t.busy = s.busy)
    (hsaturated : t.queue ≠ [] → t.freeSlots = [] ∧ t.closing = false) (hterminated : t.terminated = s.terminated) :
    t.Holds ∧ Follows s t := by
  refine ⟨⟨hacquires ▸ hwaiters, ?_, hsaturated, hterminated.trans h.terminated⟩,
    follows_update hslots.1 hacquires ?_ ?_ ?_⟩
  · rw [hslots.1, hslots.2.1, hslots.2.2, hacquires]
    exact h.slots.congr (leases_aside (fun slot heq => by rw [hbefore] at heq; cases heq) hafter)
  · intro r hr
    rw [hbefore] at hr
    cases hr
  · intro htrue
    rw [hreleased] at htrue
    cases htrue
  · exact fun slot hslot => absurd hslot (hafter slot)

/-- What is known of an acquire that was not awaited. -/
theorem Holds.cold (h : s.Holds) (hcold : (s.acquires k).progress = .cold) :
    (s.acquires k).queued = false ∧ (s.acquires k).result = none ∧ (s.acquires k).continuation = false ∧
      (s.acquires k).scheduledResumes = 0 ∧ (s.acquires k).resumes = 0 ∧ (s.acquires k).released = false := by
  obtain ⟨hphase, -, hreleased⟩ := h.waiters.consistent k
  rw [hcold] at hphase
  obtain ⟨hqueued, hresult, hcontinuation, hscheduled, hresumes⟩ := hphase
  refine ⟨hqueued, hresult, hcontinuation, hscheduled, hresumes, Bool.eq_false_iff.mpr fun htrue => ?_⟩
  have := hreleased htrue
  omega

variable {r : WorkerWaitResult Nat}

theorem Holds.awaitReady (h : s.Holds) (hcold : (s.acquires k).progress = .cold)
    (hstatus : r ≠ .outcome .workerStopping) :
    PoolLeaseAcquire.Consistent { s.acquires k with result := some r, progress := .ready } ∧
      WaitersAgree (update s.acquires k { s.acquires k with result := some r, progress := .ready }) s.queue
        s.enqueued := by
  obtain ⟨hqueued, _, hcontinuation, hscheduled, hresumes, hreleased⟩ := h.cold hcold
  have hconsistent : PoolLeaseAcquire.Consistent { s.acquires k with result := some r, progress := .ready } :=
    ⟨⟨hqueued, rfl, hcontinuation, hscheduled, hresumes⟩, fun heq => hstatus (Option.some.inj heq),
      fun htrue => by rw [show (s.acquires k).released = true from htrue] at hreleased; cases hreleased⟩
  exact ⟨hconsistent, h.waiters.replace hconsistent rfl nofun⟩

theorem Holds.await (h : s.Holds) (hcold : (s.acquires k).progress = .cold) (timeout : LeaseTimeout)
    (stop : LeaseStop) : (s.await k timeout stop).Holds ∧ Follows s (s.await k timeout stop) := by
  obtain ⟨_, hresult, _, _, _, hreleased⟩ := h.cold hcold
  have houtcome : ∀ status : WorkerWaitStatus, status ≠ .workerStopping →
      (s.set k { s.acquires k with result := some (.outcome status), progress := .ready }).Holds ∧
        Follows s (s.set k { s.acquires k with result := some (.outcome status), progress := .ready }) := by
    intro status hstatus
    have hready := h.awaitReady hcold (r := .outcome status) fun heq => hstatus (WorkerWaitResult.outcome.inj heq)
    exact h.aside rfl hready.2 hresult hreleased (fun slot heq => by cases heq) ⟨rfl, rfl, rfl⟩ h.saturated rfl
  unfold PoolLeases.await
  cases htry : s.tryAcquire stop.stopRequested with
  | none =>
    have hsaturated : s.closing = false ∧ s.freeSlots = [] := by
      unfold tryAcquire at htry
      split at htry
      · cases htry
      · rename_i hopen
        split at htry
        · cases htry
        · split at htry
          · rename_i hfree
            exact ⟨Bool.eq_false_iff.mpr hopen, hfree⟩
          · cases htry
    obtain ⟨a, hsuspends⟩ := awaitSuspend_spec h.waiters hcold timeout stop
    obtain ⟨nextWaiterId, queue, hstate, hqueue⟩ := hsuspends.state
    rw [hstate]
    refine h.aside rfl ?_ hresult hreleased hsuspends.result ⟨rfl, rfl, rfl⟩ (fun _ => ⟨hsaturated.2, hsaturated.1⟩) rfl
    rcases hqueue with ⟨hqueued, rfl⟩ | ⟨hqueued, rfl⟩
    · exact h.waiters.join hcold hsuspends.consistent hqueued hsuspends.progress
    · exact h.waiters.pass hcold hsuspends.consistent hqueued hsuspends.progress
  | some acquired =>
    unfold tryAcquire at htry
    split at htry
    · cases htry
      exact houtcome .closed nofun
    · rename_i hopen
      split at htry
      · cases htry
        exact houtcome .cancelled nofun
      · split at htry
        · cases htry
        · rename_i slot freeSlots hfree
          cases htry
          have hempty : s.queue = [] := by
            by_contra hne
            rw [(h.saturated hne).1] at hfree
            cases hfree
          have hready := h.awaitReady hcold (r := .value slot) nofun
          refine ⟨⟨hready.2, ?_, fun hne => absurd hempty hne, h.terminated⟩, follows_update rfl rfl ?_ ?_ ?_⟩
          · refine SlotsAgree.take (k := k) (hfree ▸ h.slots) fun j x => ?_
            show Leases (update s.acquires k _) j x ↔ _
            rw [leases_update]
            by_cases hj : j = k
            · subst hj
              simp [Leases, hresult, hreleased, eq_comm]
            · simp [hj]
          · intro r hr
            rw [hresult] at hr
            cases hr
          · exact id
          · intro slot' heq
            cases heq
            refine .inr ⟨hempty, Bool.eq_false_iff.mpr hopen, ?_⟩
            rw [hfree]
            exact List.mem_cons_self

/-! ## Waiters that end -/

section

variable (h : s.Holds)
include h

/-- An acquire changes neither its place nor its result. -/
theorem Holds.keep (ha : a.Consistent) (hresult : a.result = (s.acquires k).result)
    (hreleased : a.released = (s.acquires k).released) (hqueued : a.queued = (s.acquires k).queued)
    (hcold : a.progress = .cold → (s.acquires k).progress = .cold) (hacquires : t.acquires = update s.acquires k a)
    (hqueue : t.queue = s.queue ∧ t.enqueued = s.enqueued)
    (hslots : t.poolSize = s.poolSize ∧ t.freeSlots = s.freeSlots ∧ t.busy = s.busy)
    (hclosing : t.closing = s.closing) (hterminated : t.terminated = s.terminated) : t.Holds ∧ Follows s t := by
  refine ⟨⟨?_, ?_, ?_, hterminated.trans h.terminated⟩, follows_update hslots.1 hacquires (fun r hr => hresult.trans hr)
    (fun htrue => hreleased.trans htrue) fun slot hslot => .inl (hresult.symm.trans hslot)⟩
  · rw [hacquires, hqueue.1, hqueue.2]
    exact h.waiters.replace ha hqueued hcold
  · rw [hslots.1, hslots.2.1, hslots.2.2, hacquires]
    exact h.slots.congr (leases_keep hresult hreleased)
  · rw [hqueue.1, hslots.2.1, hclosing]
    exact h.saturated

/-- A waiter ends without a slot. -/
theorem Holds.ended (hmem : k ∈ s.queue) {status : WorkerWaitStatus}
    (hstatus : status ≠ .workerStopping) (ha : a.Ended (.outcome status)) :
    Holds { s.set k a with queue := s.queue.erase k } ∧
      Follows s { s.set k a with queue := s.queue.erase k } := by
  obtain ⟨hprogress, _, hresult, _, _, _, hreleased⟩ := h.waiters.waiting hmem
  have hconsistent := ha.consistent fun heq => hstatus (WorkerWaitResult.outcome.inj heq)
  refine h.aside rfl (h.waiters.leave hconsistent ha.queued ?_) hresult hreleased (fun slot heq => ?_) ⟨rfl, rfl, rfl⟩
    (fun _ => h.saturated fun heq => ?_) rfl
  · rw [ha.progress]
    exact nofun
  · rw [ha.result] at heq
    cases heq
  · rw [heq] at hmem
    cases hmem

theorem Holds.cancel (k : Nat) : (s.cancel k).Holds ∧ Follows s (s.cancel k) := by
  by_cases hmem : k ∈ s.queue
  · obtain ⟨a, ha, heq⟩ := cancel_spec h.waiters hmem
    rw [heq]
    exact h.ended hmem (by rintro ⟨⟩) ha
  · have hqueued : ¬ (s.acquires k).queued = true := fun hqueued => hmem ((h.waiters.queued k).mp hqueued)
    unfold PoolLeases.cancel
    rw [if_neg hqueued]
    exact ⟨h, .refl s⟩

theorem Holds.expire (k : Nat) : (s.expire k).Holds ∧ Follows s (s.expire k) := by
  unfold PoolLeases.expire
  split
  · rename_i hqueued
    have hmem := (h.waiters.queued k).mp hqueued
    obtain ⟨a, ha, heq⟩ := finish_spec h.waiters hmem (.outcome .timedOut)
    rw [heq]
    exact h.ended hmem (by rintro ⟨⟩) ha
  · exact ⟨h, .refl s⟩

/-- The registrations of an acquire do not matter to what holds of it. -/
theorem Holds.registrations (k : Nat) (deadlineTimer stopRegistration : Bool) :
    (s.set k { s.acquires k with deadlineTimer, stopRegistration }).Holds ∧
      Follows s (s.set k { s.acquires k with deadlineTimer, stopRegistration }) :=
  h.keep (a := { s.acquires k with deadlineTimer, stopRegistration }) (h.waiters.consistent k) rfl rfl rfl id rfl
    ⟨rfl, rfl⟩ ⟨rfl, rfl, rfl⟩ rfl rfl

end

/-- Behind a change that keeps results, queue and slots, a step follows the state in front of it. -/
theorem Follows.behind {u : PoolLeases} (h : Follows t u)
    (hresult : ∀ j, (t.acquires j).result = (s.acquires j).result ∧ (t.acquires j).released = (s.acquires j).released)
    (hpoolSize : t.poolSize = s.poolSize)
    (hsame : t.queue = s.queue ∧ t.closing = s.closing ∧ t.freeSlots = s.freeSlots) : Follows s u := by
  refine ⟨h.poolSize.trans hpoolSize, fun j r hr => h.kept j r ((hresult j).1.trans hr),
    fun j hj => h.released j ((hresult j).2.trans hj), fun j slot hslot => ?_⟩
  rw [← hsame.1, ← hsame.2.1, ← hsame.2.2, ← (hresult j).1]
  refine (h.granted j slot hslot).imp_right (.imp_right (.imp_right ?_))
  rintro ⟨i, hi, hreleased⟩
  exact ⟨i, ⟨(hresult i).1 ▸ hi.1, (hresult i).2 ▸ hi.2⟩, hreleased⟩

theorem result_registrations (k : Nat) (deadlineTimer stopRegistration : Bool) (j : Nat) :
    ((s.set k { s.acquires k with deadlineTimer, stopRegistration }).acquires j).result = (s.acquires j).result ∧
      ((s.set k { s.acquires k with deadlineTimer, stopRegistration }).acquires j).released =
        (s.acquires j).released := by
  show (update s.acquires k _ j).result = _ ∧ (update s.acquires k _ j).released = _
  by_cases hj : j = k
  · rw [hj, update_self]
    exact ⟨rfl, rfl⟩
  · rw [update_of_ne hj]
    exact ⟨rfl, rfl⟩

theorem Holds.timer (h : s.Holds) (k : Nat) (expired : Bool) :
    (s.timer k expired).Holds ∧ Follows s (s.timer k expired) := by
  have hset := h.registrations k false (s.acquires k).stopRegistration
  unfold PoolLeases.timer
  split
  · obtain ⟨hholds, hfollows⟩ := hset.1.expire k
    exact ⟨hholds, hfollows.behind (result_registrations k false _) rfl ⟨rfl, rfl, rfl⟩⟩
  · exact hset

theorem Holds.stopCallback (h : s.Holds) (k : Nat) (onWorker attached : Bool) :
    (s.stopCallback k onWorker attached).Holds ∧ Follows s (s.stopCallback k onWorker attached) := by
  have hset := h.registrations k (s.acquires k).deadlineTimer false
  unfold PoolLeases.stopCallback
  split
  · obtain ⟨hholds, hfollows⟩ := hset.1.cancel k
    exact ⟨hholds, hfollows.behind (result_registrations k _ false) rfl ⟨rfl, rfl, rfl⟩⟩
  · split
    · exact ⟨⟨hset.1.waiters, hset.1.slots, hset.1.saturated, hset.1.terminated⟩,
        ⟨rfl, hset.2.kept, hset.2.released, hset.2.granted⟩⟩
    · exact hset

theorem Holds.cancelId (h : s.Holds) (waiterId : Nat) :
    (s.cancelId waiterId).Holds ∧ Follows s (s.cancelId waiterId) := by
  unfold PoolLeases.cancelId
  split
  · exact ⟨h, .refl s⟩
  · exact h.cancel _

/-! ## Going on and giving back -/

theorem Holds.awaitResume (h : s.Holds)
    (hready : (s.acquires k).progress = .ready ∨
      (s.acquires k).progress = .suspended ∧ (s.acquires k).scheduledResumes ≠ 0) :
    (s.awaitResume k).Holds ∧ Follows s (s.awaitResume k) := by
  obtain ⟨hphase, hstatus, -⟩ := h.waiters.consistent k
  obtain ⟨hqueued, hsome, hcontinuation, hresumes, hscheduled⟩ :
      (s.acquires k).queued = false ∧ (s.acquires k).result.isSome = true ∧ (s.acquires k).continuation = false ∧
        (s.acquires k).resumes = 0 ∧ (s.acquires k).scheduledResumes - 1 = 0 := by
    rcases hready with hready | ⟨hsuspended, hscheduled⟩
    · rw [hready] at hphase
      exact ⟨hphase.1, hphase.2.1, hphase.2.2.1, hphase.2.2.2.2, by rw [hphase.2.2.2.1]⟩
    · rw [hsuspended] at hphase
      rcases hphase.1 with hwaits | hended
      · exact absurd hwaits.2.2.2 hscheduled
      · exact ⟨hended.1, hended.2.1, hended.2.2.1, hphase.2, by rw [hended.2.2.2]⟩
  obtain ⟨r, hr⟩ := Option.isSome_iff_exists.mp hsome
  have heq : s.awaitResume k = s.set k
      { s.acquires k with
        deadlineTimer := false
        stopRegistration := false
        progress := .resumed
        resumes := (s.acquires k).resumes + 1
        scheduledResumes := (s.acquires k).scheduledResumes - 1 } := by
    simp only [PoolLeases.awaitResume, cancelRegistrations, remove, set, update_self, update_idem,
      hqueued, hr, Bool.false_eq_true, if_false]
  have honce : (s.acquires k).resumes + 1 = 1 := by omega
  rw [heq]
  refine h.keep ?_ ?_ ?_ ?_ ?_ rfl ⟨rfl, rfl⟩ ⟨rfl, rfl, rfl⟩ rfl rfl
  · exact ⟨⟨hqueued, hsome, hcontinuation, hscheduled, honce⟩, hstatus, fun _ => honce⟩
  · rfl
  · rfl
  · rfl
  · exact nofun

theorem Holds.retire (h : s.Holds) (hprogress : (s.acquires k).progress ≠ .ready)
    (hscheduled : (s.acquires k).scheduledResumes = 0) :
    let t := s.cancelRegistrations k
    (t.set k { t.acquires k with progress := .destroyed }).Holds ∧
      Follows s (t.set k { t.acquires k with progress := .destroyed }) := by
  obtain ⟨hphase, hstatus, hreleased⟩ := h.waiters.consistent k
  intro t
  have hresumes : (s.acquires k).result = none ∧ (s.acquires k).resumes = 0 ∨
      (s.acquires k).result.isSome = true ∧ (s.acquires k).resumes = 1 := by
    split at hphase
    · exact .inl ⟨hphase.2.1, hphase.2.2.2.2⟩
    · exact .inl ⟨hphase.2.1, hphase.2.2.2.2⟩
    · exact absurd ‹_› hprogress
    · rcases hphase.1 with hwaits | hended
      · exact .inl ⟨hwaits.2.1, hphase.2⟩
      · rw [hended.2.2.2] at hscheduled
        cases hscheduled
    · exact .inr ⟨hphase.2.1, hphase.2.2.2.2⟩
    · exact hphase.2.2
  have hconsistent : PoolLeaseAcquire.Consistent
      { s.acquires k with
        deadlineTimer := false, stopRegistration := false, queued := false, progress := .destroyed } :=
    ⟨⟨rfl, hscheduled, hresumes⟩, hstatus, hreleased⟩
  by_cases hmem : k ∈ s.queue
  · have hqueued := (h.waiters.queued k).mpr hmem
    obtain ⟨_, _, hresult, _, _, _, hkept⟩ := h.waiters.waiting hmem
    have heq : t.set k { t.acquires k with progress := .destroyed } =
        { s.set k
            { s.acquires k with
              deadlineTimer := false, stopRegistration := false, queued := false, progress := .destroyed } with
          queue := s.queue.erase k } := by
      simp only [t, cancelRegistrations, remove, set, update_self, update_idem, hqueued, if_true]
    rw [heq]
    refine h.aside rfl (h.waiters.leave hconsistent rfl nofun) hresult hkept (fun slot heq => ?_)
      ⟨rfl, rfl, rfl⟩ (fun _ => h.saturated fun heq => ?_) rfl
    · rw [show (s.acquires k).result = some (.value slot) from heq] at hresult
      cases hresult
    · rw [heq] at hmem
      cases hmem
  · have hqueued : (s.acquires k).queued = false :=
      Bool.eq_false_iff.mpr fun hqueued => hmem ((h.waiters.queued k).mp hqueued)
    have heq : t.set k { t.acquires k with progress := .destroyed } =
        s.set k
          { s.acquires k with
            deadlineTimer := false, stopRegistration := false, queued := false, progress := .destroyed } := by
      simp only [t, cancelRegistrations, remove, set, update_self, update_idem, hqueued,
        Bool.false_eq_true, if_false]
    rw [heq]
    exact h.keep hconsistent rfl rfl hqueued.symm nofun rfl ⟨rfl, rfl⟩ ⟨rfl, rfl, rfl⟩ rfl rfl

/-- **A slot that is given back** goes to the longest waiting acquire, or is free. -/
theorem releaseSlot_spec (h : s.Holds) {j slot : Nat} (hleases : Leases s.acquires j slot)
    (hresumed : (s.acquires j).resumes = 1) :
    let released := s.set j { s.acquires j with released := true }
    (s.queue = [] ∧ released.releaseSlot slot =
        { released with busy := update s.busy slot false, freeSlots := slot :: s.freeSlots }) ∨
      ∃ k a, s.queue.head? = some k ∧ k ≠ j ∧ a.Ended (.value slot) ∧
        released.releaseSlot slot = { released.set k a with queue := s.queue.erase k } := by
  intro released
  have hbusy := h.slots.leased j slot hleases
  have hrange : ¬ (s.poolSize ≤ slot ∨ s.busy slot = false) := by
    rw [hbusy, not_or]
    have := ((h.slots.leasedOut slot).mp hbusy).1
    exact ⟨by omega, by rintro ⟨⟩⟩
  have hunfold : released.releaseSlot slot =
      if s.closing then { released with busy := update s.busy slot false, freeSlots := slot :: s.freeSlots }
      else (released.commitHandoff slot).getD
        { released with busy := update s.busy slot false, freeSlots := slot :: s.freeSlots } := by
    exact if_neg hrange
  rw [hunfold]
  cases hqueue : s.queue with
  | nil =>
    refine .inl ⟨rfl, ?_⟩
    have hnone : released.commitHandoff slot = none := by
      unfold commitHandoff
      rw [show released.queue = [] from hqueue]
    rw [hnone]
    exact ite_self _
  | cons k queue =>
    have hmem : k ∈ s.queue := hqueue ▸ List.mem_cons_self
    obtain ⟨_, _, hresult, _⟩ := h.waiters.waiting hmem
    have hne : k ≠ j := by
      rintro rfl
      rw [hleases.1] at hresult
      cases hresult
    have hwaiters : WaitersAgree released.acquires released.queue released.enqueued := by
      refine h.waiters.replace ?_ rfl id
      obtain ⟨hphase, hstatus, _⟩ := h.waiters.consistent j
      exact ⟨hphase, hstatus, fun _ => hresumed⟩
    obtain ⟨a, ha, heq⟩ := finish_spec hwaiters hmem (.value slot)
    have hhandoff : released.commitHandoff slot = some { released.set k a with queue := s.queue.erase k } := by
      unfold commitHandoff
      rw [show released.queue = k :: queue from hqueue]
      exact congrArg some heq
    have hopen : s.closing = false := (h.saturated (by rw [hqueue]; exact List.cons_ne_nil _ _)).2
    refine .inr ⟨k, a, rfl, hne, ha, ?_⟩
    rw [hhandoff, hopen, if_neg Bool.false_ne_true, hqueue]
    rfl

theorem Holds.release (h : s.Holds) {j slot : Nat} (hleases : Leases s.acquires j slot)
    (hresumed : (s.acquires j).resumes = 1) :
    ((s.set j { s.acquires j with released := true }).releaseSlot slot).Holds ∧
      Follows s ((s.set j { s.acquires j with released := true }).releaseSlot slot) := by
  have hconsistent : PoolLeaseAcquire.Consistent { s.acquires j with released := true } := by
    obtain ⟨hphase, hstatus, _⟩ := h.waiters.consistent j
    exact ⟨hphase, hstatus, fun _ => hresumed⟩
  have hwaiters : WaitersAgree (update s.acquires j { s.acquires j with released := true }) s.queue s.enqueued :=
    h.waiters.replace hconsistent rfl id
  have hgiven : ∀ i x, Leases (update s.acquires j { s.acquires j with released := true }) i x ↔
      Leases s.acquires i x ∧ ¬ (i = j ∧ x = slot) := by
    intro i x
    rw [leases_update]
    constructor
    · rintro (⟨-, -, hreleased⟩ | ⟨hne, hi⟩)
      · cases hreleased
      · exact ⟨hi, fun heq => hne heq.1⟩
    · rintro ⟨hi, hne⟩
      refine .inr ⟨?_, hi⟩
      rintro rfl
      have hvalue := hleases.1
      rw [hi.1] at hvalue
      cases hvalue
      exact hne ⟨rfl, rfl⟩
  rcases releaseSlot_spec h hleases hresumed with ⟨hempty, heq⟩ | ⟨k, a, hhead, hne, ha, heq⟩
  · rw [heq]
    refine ⟨⟨hwaiters, h.slots.give hleases hgiven, fun hne => absurd hempty hne, h.terminated⟩,
      follows_update rfl rfl (fun r hr => hr) (fun _ => rfl) fun x hx => .inl hx⟩
  · rw [heq]
    have hmem : k ∈ s.queue := List.mem_of_head? hhead
    obtain ⟨hprogress, _, hresult, _⟩ := h.waiters.waiting hmem
    refine ⟨⟨hwaiters.leave (ha.consistent nofun) ha.queued fun heq => ?_,
      h.slots.handOver (w := k) hleases fun i x => ?_, fun _ => h.saturated fun heq => ?_, h.terminated⟩, rfl,
        fun i r hr => ?_, fun i hi => ?_, fun i x hx => ?_⟩
    · rw [ha.progress] at heq
      cases heq
    · show Leases (update (update s.acquires j _) k a) i x ↔ _
      rw [leases_update, hgiven, ha.result, ha.released]
      by_cases hi : i = k
      · subst hi
        have hnone : ¬ Leases s.acquires i x := fun hi => by
          rw [hi.1] at hresult
          cases hresult
        constructor
        · rintro (⟨-, hx, -⟩ | ⟨hne, -⟩)
          · cases hx
            exact .inr ⟨rfl, rfl⟩
          · exact absurd rfl hne
        · rintro (⟨hi, -⟩ | ⟨-, rfl⟩)
          · exact absurd hi hnone
          · exact .inl ⟨rfl, rfl, rfl⟩
      · simp [hi]
    · rw [heq] at hmem
      cases hmem
    · show (update (update s.acquires j _) k a i).result = some r
      by_cases hik : i = k
      · rw [hik, hresult] at hr
        cases hr
      · rw [update_of_ne hik]
        by_cases hij : i = j
        · rw [hij, update_self]
          exact hij ▸ hr
        · rw [update_of_ne hij]
          exact hr
    · show (update (update s.acquires j _) k a i).released = true
      by_cases hik : i = k
      · have hkept := (h.waiters.waiting hmem).2.2.2.2.2.2
        rw [hik, hkept] at hi
        cases hi
      · rw [update_of_ne hik]
        by_cases hij : i = j
        · rw [hij, update_self]
        · rw [update_of_ne hij]
          exact hi
    · replace hx : (update (update s.acquires j _) k a i).result = some (.value x) := hx
      by_cases hik : i = k
      · subst hik
        rw [update_self, ha.result] at hx
        cases hx
        refine .inr (.inr ⟨hhead, j, hleases, ?_⟩)
        show (update (update s.acquires j _) i a j).released = true
        rw [update_of_ne (Ne.symm hne), update_self]
      · rw [update_of_ne hik] at hx
        by_cases hij : i = j
        · subst hij
          rw [update_self] at hx
          exact .inl hx
        · rw [update_of_ne hij] at hx
          exact .inl hx

/-! ## Closing -/

/-- `close_all` ends every waiter with `closed`, and touches nothing else. -/
structure ClosesAll (s t : PoolLeases) : Prop where
  waiters : WaitersAgree t.acquires [] s.enqueued
  ended : ∀ k ∈ s.queue, (t.acquires k).Ended (.outcome .closed)
  other : ∀ k, k ∉ s.queue → t.acquires k = s.acquires k
  state : t = { s with queue := [], acquires := t.acquires }

theorem ClosesAll.of_empty (h : WaitersAgree s.acquires s.queue s.enqueued) (hempty : s.queue = []) :
    ClosesAll s s := by
  have hnot : ∀ k, k ∉ s.queue := fun k hmem => by rw [hempty] at hmem; cases hmem
  refine ⟨hempty ▸ h, fun k hmem => absurd hmem (hnot k), fun _ _ => rfl, ?_⟩
  rw [← hempty]

theorem closeAll_spec (n : Nat) (s : PoolLeases) (h : WaitersAgree s.acquires s.queue s.enqueued)
    (hlength : s.queue.length ≤ n) : ClosesAll s (closeAll n s) := by
  induction n generalizing s with
  | zero => exact .of_empty h (List.length_eq_zero_iff.mp (Nat.le_zero.mp hlength))
  | succ n ih =>
    unfold closeAll
    split
    · rename_i hempty
      exact .of_empty h hempty
    · rename_i k queue hqueue
      have hmem : k ∈ s.queue := hqueue ▸ List.mem_cons_self
      obtain ⟨a, ha, heq⟩ := finish_spec h hmem (.outcome .closed)
      rw [heq]
      have herase : s.queue.erase k = queue := by rw [hqueue, List.erase_cons_head]
      have hclosed := ih { s.set k a with queue := s.queue.erase k }
        (h.leave (ha.consistent nofun) ha.queued fun heq => by rw [ha.progress] at heq; cases heq)
        (by
          rw [herase]
          rw [hqueue] at hlength
          exact Nat.le_of_succ_le_succ hlength)
      have hset : ∀ j, j ≠ k → (s.set k a).acquires j = s.acquires j := fun j hj => update_of_ne hj _ _
      have hself : (s.set k a).acquires k = a := update_self _ _ _
      have hknot : k ∉ s.queue.erase k := fun hk => (h.nodup.mem_erase_iff.mp hk).1 rfl
      refine ⟨hclosed.waiters, fun j hj => ?_, fun j hj => ?_, hclosed.state⟩
      · by_cases hjk : j = k
        · subst hjk
          rw [hclosed.other j hknot]
          rw [hself]
          exact ha
        · exact hclosed.ended j ((List.mem_erase_of_ne hjk).mpr hj)
      · have hjk : j ≠ k := fun heq => hj (heq ▸ hmem)
        rw [hclosed.other j fun hmem' => hj (List.mem_of_mem_erase hmem')]
        exact hset j hjk

theorem Holds.close (h : s.Holds) : s.close.Holds ∧ Follows s s.close := by
  unfold PoolLeases.close
  split
  · exact ⟨h, .refl s⟩
  · have hclosed := closeAll_spec s.queue.length { s with closing := true } h.waiters (Nat.le_refl _)
    generalize closeAll s.queue.length { s with closing := true } = t at hclosed
    have hnone : ∀ k ∈ s.queue, (s.acquires k).result = none ∧ (s.acquires k).released = false := fun k hmem =>
      ⟨(h.waiters.waiting hmem).2.2.1, (h.waiters.waiting hmem).2.2.2.2.2.2⟩
    have hsame : ∀ j slot, Leases t.acquires j slot ↔ Leases s.acquires j slot := by
      intro j slot
      by_cases hmem : j ∈ s.queue
      · simp [Leases, (hclosed.ended j hmem).result, (hnone j hmem).1]
      · unfold Leases
        rw [hclosed.other j hmem]
    have hstate := hclosed.state
    refine ⟨⟨?_, ?_, fun hne => ?_, ?_⟩, ?_, fun j r hr => ?_, fun j hj => ?_, fun j slot hslot => ?_⟩
    · rw [hstate]
      exact hclosed.waiters
    · rw [hstate]
      exact h.slots.congr hsame
    · rw [hstate] at hne
      exact absurd rfl hne
    · rw [hstate]
      exact h.terminated
    · rw [hstate]
    · by_cases hmem : j ∈ s.queue
      · rw [(hnone j hmem).1] at hr
        cases hr
      · rw [hclosed.other j hmem]
        exact hr
    · by_cases hmem : j ∈ s.queue
      · rw [(hnone j hmem).2] at hj
        cases hj
      · rw [hclosed.other j hmem]
        exact hj
    · by_cases hmem : j ∈ s.queue
      · rw [(hclosed.ended j hmem).result] at hslot
        cases hslot
      · rw [hclosed.other j hmem] at hslot
        exact .inl hslot

/-! ## Runs -/

/-- **Every action keeps the invariant**, and replaces no result. -/
theorem Holds.step (h : s.Holds) {action : PoolLeaseAction} (hstep : s.step action = some t) :
    t.Holds ∧ Follows s t := by
  unfold PoolLeases.step at hstep
  split at hstep
  · split at hstep <;> cases hstep
    exact h.await ‹_› _ _
  · split at hstep <;> cases hstep
    exact h.timer _ _
  · split at hstep <;> cases hstep
    exact h.stopCallback _ _ _
  · split at hstep <;> cases hstep
    rename_i waiterId cancellations _
    obtain ⟨hholds, hfollows⟩ := Holds.cancelId (s := { s with cancellations })
      ⟨h.waiters, h.slots, h.saturated, h.terminated⟩ waiterId
    exact ⟨hholds, hfollows.behind (fun _ => ⟨rfl, rfl⟩) rfl ⟨rfl, rfl, rfl⟩⟩
  · split at hstep <;> cases hstep
    exact h.awaitResume ‹_›
  · split at hstep
    · rename_i slot hvalue
      split at hstep <;> cases hstep
      rename_i howner
      exact h.release ⟨hvalue, howner.2⟩ howner.1
    · cases hstep
  · split at hstep
    · cases hstep
    · rename_i hprogress
      cases hstep
      rw [not_or, not_or, not_not] at hprogress
      exact h.retire hprogress.2.1 hprogress.2.2
  · cases hstep
    exact h.close

theorem init_holds (poolSize : Nat) : (init poolSize).Holds where
  waiters := ⟨List.nodup_nil, fun _ => ⟨nofun, nofun⟩,
    fun _ => ⟨⟨rfl, rfl, rfl, rfl, rfl⟩, nofun, nofun⟩, List.Sublist.refl [], List.nodup_nil,
    nofun⟩
  slots := by
    refine ⟨List.nodup_reverse.mpr List.nodup_range, fun slot hslot => ?_, fun slot => ?_, ?_, ?_, ?_⟩
    · exact List.mem_range.mp (List.mem_reverse.mp hslot)
    · show false = true ↔ slot < poolSize ∧ slot ∉ (List.range poolSize).reverse
      simp
    · rintro k slot ⟨⟨⟩, -⟩
    · rintro slot ⟨⟩
    · rintro j k slot ⟨⟨⟩, -⟩
  saturated h := absurd rfl h
  terminated := rfl

theorem holds_of_reachable {poolSize : Nat} (h : (poolLeaseMachine poolSize).Reachable s) :
    s.Holds ∧ s.poolSize = poolSize := by
  refine StateMachine.Reachable.invariant (P := fun s => s.Holds ∧ s.poolSize = poolSize) ?_ ?_ h
  · rintro s rfl
    exact ⟨init_holds poolSize, rfl⟩
  · rintro s action t ⟨hs, hsize⟩ hstep
    obtain ⟨hholds, hfollows⟩ := hs.step hstep
    exact ⟨hholds, hfollows.poolSize.trans hsize⟩

/-- **A result is for good.** -/
theorem result_stable {poolSize : Nat} (h : (poolLeaseMachine poolSize).Reachable s)
    (hresult : (s.acquires k).result = some r) (hreaches : (poolLeaseMachine poolSize).Reaches s t) :
    (t.acquires k).result = some r := by
  refine StateMachine.Reaches.stable (P := fun t => (t.acquires k).result = some r) (fun u action v hu hr hstep => ?_) h
    hreaches hresult
  exact ((holds_of_reachable hu).1.step hstep).2.kept k r hr

/-! ## Leasing -/

/-- Where an acquire is: it waits in the queue, or has its one result and one way on, or went on once. -/
def Accounted (s : PoolLeases) (k : Nat) : Prop :=
  (s.acquires k).resumes = 0 ∧
      ((s.acquires k).result = none ∧
          ((s.acquires k).progress = .cold ∨ (s.acquires k).progress = .threw ∨ (s.acquires k).progress = .destroyed ∨
            (s.acquires k).progress = .suspended ∧ k ∈ s.queue) ∨
        (s.acquires k).result.isSome = true ∧ k ∉ s.queue ∧ (s.step (.awaitResume k)).isSome = true) ∨
    (s.acquires k).resumes = 1 ∧ (s.acquires k).result.isSome = true ∧ k ∉ s.queue ∧ s.step (.awaitResume k) = none

theorem Holds.accounted (h : s.Holds) (k : Nat) : s.Accounted k := by
  have hqueued := h.waiters.queued k
  obtain ⟨hphase, -, -⟩ := h.waiters.consistent k
  unfold Accounted PoolLeases.step
  cases hprogress : (s.acquires k).progress <;> rw [hprogress] at hphase <;> dsimp only at hphase
  case cold | threw =>
    refine .inl ⟨hphase.2.2.2.2, .inl ⟨hphase.2.1, ?_⟩⟩
    simp
  case ready =>
    refine .inl ⟨hphase.2.2.2.2, .inr ⟨hphase.2.1, ?_, by simp [hprogress]⟩⟩
    rw [← hqueued, hphase.1]
    exact Bool.false_ne_true
  case suspended =>
    refine .inl ⟨hphase.2, ?_⟩
    rcases hphase.1 with hwaits | hended
    · exact .inl ⟨hwaits.2.1, .inr (.inr (.inr ⟨rfl, hqueued.mp hwaits.1⟩))⟩
    · refine .inr ⟨hended.2.1, ?_, by simp [hprogress, hended.2.2.2]⟩
      rw [← hqueued, hended.1]
      exact Bool.false_ne_true
  case resumed =>
    refine .inr ⟨hphase.2.2.2.2, hphase.2.1, ?_, by simp [hprogress]⟩
    rw [← hqueued, hphase.1]
    exact Bool.false_ne_true
  case destroyed =>
    rcases hphase.2.2 with ⟨hresult, hresumes⟩ | ⟨hresult, hresumes⟩
    · exact .inl ⟨hresumes, .inl ⟨hresult, .inr (.inr (.inl rfl))⟩⟩
    · refine .inr ⟨hresumes, hresult, ?_, by simp [hprogress]⟩
      rw [← hqueued, hphase.1]
      exact Bool.false_ne_true

/-- The owner of a slot can give it back; the longest waiting acquire gets it. -/
theorem Holds.release_step (h : s.Holds) {j slot : Nat} (hleases : Leases s.acquires j slot)
    (hresumed : (s.acquires j).resumes = 1) :
    ∃ t, s.step (.release j) = some t ∧
      ((∃ k, s.queue.head? = some k ∧ Leases t.acquires k slot) ∨ s.queue = [] ∧ slot ∈ t.freeSlots) := by
  refine ⟨(s.set j { s.acquires j with released := true }).releaseSlot slot, ?_, ?_⟩
  · simp only [PoolLeases.step, hleases.1]
    exact if_pos ⟨hresumed, hleases.2⟩
  · rcases releaseSlot_spec h hleases hresumed with ⟨hempty, heq⟩ | ⟨k, a, hhead, hne, ha, heq⟩
    · rw [heq]
      exact .inr ⟨hempty, List.mem_cons_self⟩
    · rw [heq]
      refine .inl ⟨k, hhead, ?_⟩
      show Leases (update (update s.acquires j _) k a) k slot
      rw [leases_update]
      exact .inl ⟨rfl, ha.result, ha.released⟩

end PoolLeases

end Ruvia.Core
