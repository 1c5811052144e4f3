import Ruvia.Core.WorkerWait
import Ruvia.Library.StateMachine

/-!
# `Core.OneShot` — one value from any thread to one waiting receiver

`one_shot_state`, `one_shot_completion::complete`, `one_shot_awaiter` and `one_shot_receiver::close`. Every section
under the mutex is one action; what a call does outside of it (moving the value into its slot or out of it,
destroying it) is an action of its own, so that any other section may come in between. Calls, waits and closes
are numbered.
-/

namespace Ruvia.Core

open Library Function
open WorkerWaits

inductive OneShotCompleteStatus where
  | alreadyCompleted
  | inProgress
  | receiverClosed
  | workerStopping
  deriving DecidableEq, Repr

inductive OneShotLifecycle where
  | pending
  | completing
  | ready
  | consumed
  | receiverClosed
  | workerStopping
  deriving DecidableEq, Repr

/-- The lifecycles in which the exchange is decided. -/
def OneShotLifecycle.isTerminal : OneShotLifecycle → Bool
  | .consumed | .receiverClosed | .workerStopping => true
  | .pending | .completing | .ready => false

/-- One call of `complete`, by the section it has come to. -/
inductive CompleteCall (τ : Type) where
  | idle
  /-- Holds its value, in front of the first section. -/
  | called (value : τ)
  /-- Published `completing`; the value is still to be moved. -/
  | claimed (value : τ)
  /-- Moving the value threw; `pending` is still to be restored. -/
  | restoring (value : τ)
  /-- The value is in its slot; in front of the second section. -/
  | stored
  /-- Refused by the second section; the value is still to be moved out. -/
  | rejecting (status : OneShotCompleteStatus)
  | accepted
  | rejected (status : OneShotCompleteStatus) (value : τ)
  | threw (value : τ)

/-- One call of `close`. -/
inductive CloseCall where
  | idle
  /-- The closed exchange was ready; its value is still to be destroyed. -/
  | discarding
  | returned
  deriving DecidableEq, Repr

/-- `one_shot_state` with everything its endpoints are doing. `submitted`, `delivered` and `destroyed` record the
values that went in, came out of a wait, and were destroyed by a close; `undefined` is a read of an empty slot. -/
structure OneShot (τ : Type) where
  lifecycle : OneShotLifecycle := .pending
  readyValue : Option τ := none
  waits : WorkerWaits Unit := {}
  calls : Nat → CompleteCall τ := fun _ => .idle
  closes : Nat → CloseCall := fun _ => .idle
  submitted : Nat → Option τ := fun _ => none
  delivered : Nat → Option τ := fun _ => none
  destroyed : List τ := []
  undefined : Bool := false

inductive OneShotAction (τ : Type) where
  | call (k : Nat) (value : τ)
  | claim (k : Nat) (accepting : Bool)
  | emplace (k : Nat) (throws : Bool)
  | restore (k : Nat)
  | publish (k : Nat) (accepting : Bool)
  | takeBack (k : Nat)
  | awaitReady (w : Nat) (stopRequested expired stoppable : Bool)
  | awaitSuspend (w : Nat) (timed : Bool) (schedule : TimerSchedule)
  | timerCompleted (w : Nat) (expired : Bool)
  | requestCancellation (w : Nat)
  | awaitResume (w : Nat)
  | close (c : Nat)
  | discard (c : Nat)
  | workerStopping

namespace OneShot

variable {τ : Type} (s : OneShot τ)

def setCall (k : Nat) (call : CompleteCall τ) : OneShot τ := { s with calls := update s.calls k call }

/-- The first section of `complete`. -/
def claim (k : Nat) (value : τ) (accepting : Bool) : OneShot τ :=
  match s.lifecycle with
  | .ready | .consumed => s.setCall k (.rejected .alreadyCompleted value)
  | .completing => s.setCall k (.rejected .inProgress value)
  | .workerStopping => s.setCall k (.rejected .workerStopping value)
  | .receiverClosed => s.setCall k (.rejected .receiverClosed value)
  | .pending =>
    if accepting = false then s.setCall k (.rejected .workerStopping value)
    else { s.setCall k (.claimed value) with lifecycle := .completing }

/-- The section of the handler of `complete`. -/
def restore (k : Nat) (value : τ) : OneShot τ :=
  { s.setCall k (.threw value) with
    lifecycle := if s.lifecycle = .completing then .pending else s.lifecycle }

/-- The second section of `complete`. -/
def publish (k : Nat) (accepting : Bool) : OneShot τ :=
  if s.lifecycle = .receiverClosed then s.setCall k (.rejecting .receiverClosed)
  else if s.lifecycle = .workerStopping ∨ accepting = false then
    { s.setCall k (.rejecting .workerStopping) with
      lifecycle := .workerStopping
      waits := s.waits.complete (.outcome .workerStopping) }
  else if s.waits.occupied then
    { s.setCall k .accepted with lifecycle := .consumed, waits := s.waits.complete (.value ()) }
  else { s.setCall k .accepted with lifecycle := .ready }

/-- The refused value, moved out of its slot. -/
def takeBack (k : Nat) (status : OneShotCompleteStatus) : OneShot τ :=
  match s.readyValue with
  | none => { s with undefined := true }
  | some value => { s.setCall k (.rejected status value) with readyValue := none }

/-- The section of `await_ready`. -/
def awaitReady (w : Nat) (stopRequested expired stoppable : Bool) : OneShot τ :=
  match s.lifecycle with
  | .ready => { s with lifecycle := .consumed, waits := s.waits.completeReady w (.value ()) }
  | .workerStopping => { s with waits := s.waits.completeReady w (.outcome .workerStopping) }
  | .receiverClosed | .consumed => { s with waits := s.waits.completeReady w (.outcome .closed) }
  | .pending | .completing =>
    { s with waits := s.waits.completeOrPublish w stopRequested expired stoppable }

/-- `await_resume`. -/
def awaitResume (w : Nat) : Option (OneShot τ) :=
  match s.waits.awaitResume w with
  | none => none
  | some (waits, .outcome _) => some { s with waits }
  | some (waits, .value ()) =>
    match s.readyValue with
    | none => some { s with waits, undefined := true }
    | some value =>
      some { s with waits, readyValue := none, delivered := update s.delivered w (some value) }

/-- The section of `close`. -/
def close (c : Nat) : OneShot τ :=
  match s.lifecycle with
  | .ready | .pending | .completing =>
    { s with
      lifecycle := .receiverClosed
      waits := s.waits.complete (.outcome .closed)
      closes := update s.closes c (if s.lifecycle = .ready then .discarding else .returned) }
  | .consumed | .receiverClosed | .workerStopping => { s with closes := update s.closes c .returned }

/-- `worker_stopping`. -/
def workerStopping : OneShot τ :=
  { s with
    lifecycle := if s.lifecycle = .pending ∨ s.lifecycle = .completing then .workerStopping else s.lifecycle
    waits := s.waits.complete (.outcome .workerStopping) }

/-- One action; a call goes through its sections in their order. -/
def step : OneShotAction τ → Option (OneShot τ)
  | .call k value =>
    match s.calls k with
    | .idle => some { s.setCall k (.called value) with submitted := update s.submitted k (some value) }
    | _ => none
  | .claim k accepting =>
    match s.calls k with
    | .called value => some (s.claim k value accepting)
    | _ => none
  | .emplace k throws =>
    match s.calls k with
    | .claimed value =>
      some (if throws then s.setCall k (.restoring value)
        else { s.setCall k .stored with readyValue := some value })
    | _ => none
  | .restore k =>
    match s.calls k with
    | .restoring value => some (s.restore k value)
    | _ => none
  | .publish k accepting =>
    match s.calls k with
    | .stored => some (s.publish k accepting)
    | _ => none
  | .takeBack k =>
    match s.calls k with
    | .rejecting status => some (s.takeBack k status)
    | _ => none
  | .awaitReady w stopRequested expired stoppable =>
    if (s.waits.awaiters w).progress = .cold then some (s.awaitReady w stopRequested expired stoppable) else none
  | .awaitSuspend w timed schedule =>
    if (s.waits.awaiters w).progress = .published then some { s with waits := s.waits.suspend w timed schedule }
    else none
  | .timerCompleted w expired => (s.waits.timerFires w expired).map fun waits => { s with waits }
  | .requestCancellation w => (s.waits.stopFires w).map fun waits => { s with waits }
  | .awaitResume w => s.awaitResume w
  | .close c => if s.closes c = .idle then some (s.close c) else none
  | .discard c =>
    if s.closes c = .discarding then
      some
        { s with
          closes := update s.closes c .returned
          destroyed := s.destroyed ++ s.readyValue.toList
          readyValue := none }
    else none
  | .workerStopping => some s.workerStopping

end OneShot

/-- The runs of one exchange. -/
def oneShotMachine (τ : Type) : StateMachine (OneShot τ) (OneShotAction τ) where
  init s := s = {}
  step := OneShot.step

/-! ## Where the exchange stands -/

/-- The sections of `complete` in which a call is concerned with the value slot. -/
inductive CompletePhase where
  | claimed
  | restoring
  | stored
  | rejecting
  | accepted
  deriving DecidableEq

def CompleteCall.phase {τ : Type} : CompleteCall τ → Option CompletePhase
  | .claimed _ => some .claimed
  | .restoring _ => some .restoring
  | .stored => some .stored
  | .rejecting _ => some .rejecting
  | .accepted => some .accepted
  | .idle | .called _ | .rejected _ _ | .threw _ => none

/-- The value a call holds itself. -/
def CompleteCall.held {τ : Type} : CompleteCall τ → Option τ
  | .called value | .claimed value | .restoring value | .rejected _ value | .threw value => some value
  | .idle | .stored | .rejecting _ | .accepted => none

/-- **The exchange, without its mechanism**: who is concerned with the value slot, and where the value went. -/
inductive Stage (τ : Type) where
  | idle
  | claimed (k : Nat)
  | restoring (k : Nat)
  | stored (k : Nat) (value : τ)
  | rejecting (k : Nat) (value : τ)
  | ready (k : Nat) (value : τ)
  | committed (k : Nat) (value : τ) (w : Nat)
  | discarding (k : Nat) (value : τ) (c : Nat)
  | delivered (k : Nat) (value : τ) (w : Nat)
  | destroyed (k : Nat) (value : τ)

namespace Stage

variable {τ : Type}

/-- The call that is concerned with the slot, and its section. -/
def owner : Stage τ → Option (Nat × CompletePhase)
  | .idle => none
  | .claimed k => some (k, .claimed)
  | .restoring k => some (k, .restoring)
  | .stored k _ => some (k, .stored)
  | .rejecting k _ => some (k, .rejecting)
  | .ready k _ | .committed k _ _ | .discarding k _ _ | .delivered k _ _ | .destroyed k _ => some (k, .accepted)

/-- The value of the exchange, with the call it came from. -/
def value : Stage τ → Option (Nat × τ)
  | .idle | .claimed _ | .restoring _ => none
  | .stored k v | .rejecting k v | .ready k v | .committed k v _ | .discarding k v _ | .delivered k v _
  | .destroyed k v => some (k, v)

/-- What the slot holds. -/
def slot : Stage τ → Option τ
  | .stored _ v | .rejecting _ v | .ready _ v | .committed _ v _ | .discarding _ v _ => some v
  | .idle | .claimed _ | .restoring _ | .delivered _ _ _ | .destroyed _ _ => none

/-- The wait that was completed with the value. -/
def receiver : Stage τ → Option Nat
  | .committed _ _ w | .delivered _ _ w => some w
  | _ => none

/-- The wait that took the value. -/
def taker : Stage τ → Option (Nat × τ)
  | .delivered _ v w => some (w, v)
  | _ => none

def discarder : Stage τ → Option Nat
  | .discarding _ _ c => some c
  | _ => none

def destroyedValues : Stage τ → List τ
  | .destroyed _ v => [v]
  | _ => []

/-- The lifecycles that go with a stage. -/
def Allows : Stage τ → OneShotLifecycle → Prop
  | .idle, l => l = .pending ∨ l = .receiverClosed ∨ l = .workerStopping
  | .claimed _, l | .restoring _, l | .stored _ _, l => l = .completing ∨ l = .receiverClosed ∨ l = .workerStopping
  | .rejecting _ _, l => l = .receiverClosed ∨ l = .workerStopping
  | .ready _ _, l => l = .ready
  | .committed _ _ _, l | .delivered _ _ _, l => l = .consumed
  | .discarding _ _ _, l | .destroyed _ _, l => l = .receiverClosed

end Stage

/-- The calls agree with the one that is concerned with the slot, and with the value that came from it. -/
structure CallsAgree {τ : Type} (calls : Nat → CompleteCall τ) (submitted : Nat → Option τ)
    (owner : Option (Nat × CompletePhase)) (value : Option (Nat × τ)) : Prop where
  owner : ∀ k phase, (calls k).phase = some phase ↔ owner = some (k, phase)
  held : ∀ k v, (calls k).held = some v → submitted k = some v
  idle : ∀ k, calls k = .idle → submitted k = none
  value : ∀ k v, value = some (k, v) → submitted k = some v

/-- The waits agree with the one that was completed with the value, and with whether it went on. -/
structure WaitsAgree (waits : WorkerWaits Unit) (receiver : Option Nat) (taken : Bool) : Prop where
  holds : waits.Holds
  received : ∀ w, waits.result w = some (.value ()) ↔ receiver = some w
  resumed : ∀ w, receiver = some w → ((waits.awaiters w).progress = .resumed ↔ taken = true)

namespace OneShot

variable {τ : Type} {s : OneShot τ} {stage : Stage τ}

/-- **The state agrees with a stage of the exchange.** -/
structure Agrees (s : OneShot τ) (stage : Stage τ) : Prop where
  calls : CallsAgree s.calls s.submitted stage.owner stage.value
  waits : WaitsAgree s.waits stage.receiver stage.taker.isSome
  lifecycle : stage.Allows s.lifecycle
  waiter : s.waits.waiter.isSome = true → s.lifecycle = .pending ∨ s.lifecycle = .completing
  slot : s.readyValue = stage.slot
  delivered : ∀ w v, s.delivered w = some v ↔ stage.taker = some (w, v)
  discarder : ∀ c, s.closes c = .discarding ↔ stage.discarder = some c
  destroyed : s.destroyed = stage.destroyedValues
  undefined : s.undefined = false

/-! ## The parts -/

section

variable {calls : Nat → CompleteCall τ} {submitted : Nat → Option τ} {owner owner' : Option (Nat × CompletePhase)}
  {value value' : Option (Nat × τ)}

section

variable (h : CallsAgree calls submitted owner value)
include h

/-- A call moves to its next section. -/
theorem callsAgree_update {k : Nat} {call : CompleteCall τ}
    (howner : ∀ phase, call.phase = some phase ↔ owner' = some (k, phase))
    (hother : ∀ j, j ≠ k → ∀ phase, owner' = some (j, phase) ↔ owner = some (j, phase))
    (hheld : ∀ v, call.held = some v → submitted k = some v) (hidle : call ≠ .idle)
    (hvalue : ∀ j v, value' = some (j, v) → submitted j = some v) :
    CallsAgree (update calls k call) submitted owner' value' := by
  refine ⟨fun j phase => ?_, fun j v => ?_, fun j => ?_, hvalue⟩
  all_goals
    by_cases hj : j = k
    · rw [hj, update_self]
      first
        | exact howner phase
        | exact hheld v
        | exact fun heq => absurd heq hidle
    · rw [update_of_ne hj]
      first
        | exact (h.owner j phase).trans (hother j hj phase).symm
        | exact h.held j v
        | exact h.idle j

/-- The call that is concerned with the slot moves on, or none is. -/
theorem callsAgree_next {k : Nat} {call : CompleteCall τ}
    (hbefore : ∀ entry ∈ owner, entry.1 = k) (hafter : owner' = call.phase.map (k, ·))
    (hheld : ∀ v, call.held = some v → submitted k = some v) (hidle : call ≠ .idle)
    (hvalue : ∀ j v, value' = some (j, v) → submitted j = some v) :
    CallsAgree (update calls k call) submitted owner' value' := by
  subst hafter
  refine callsAgree_update h (fun phase => by simp) (fun j hj phase => ?_) hheld hidle hvalue
  exact iff_of_false (by simp [Ne.symm hj]) fun howner => hj (hbefore _ howner)

/-- A call that is not concerned with the slot, and stays so. -/
theorem callsAgree_aside {k : Nat} {call : CompleteCall τ}
    (hbefore : (calls k).phase = none) (hafter : call.phase = none)
    (hheld : ∀ v, call.held = some v → submitted k = some v) (hidle : call ≠ .idle) :
    CallsAgree (update calls k call) submitted owner value := by
  refine callsAgree_update h (fun phase => ?_) (fun j _ phase => Iff.rfl) hheld hidle h.value
  rw [← h.owner k phase, hbefore, hafter]

end

variable {waits waits' : WorkerWaits Unit} {receiver : Option Nat} {taken : Bool}

theorem waitsAgree_quiet (h : WaitsAgree waits receiver taken) (hholds : waits'.Holds)
    (hquiet : WorkerWaits.Quiet waits waits') : WaitsAgree waits' receiver taken :=
  ⟨hholds, fun w => (hquiet.value w ()).trans (h.received w),
    fun w hw => (hquiet.resumed w).trans (h.resumed w hw)⟩

/-- The wait that is completed with the value. -/
theorem waitsAgree_completes (h : WaitsAgree waits none taken) {w : Nat} (hholds : waits'.Holds)
    (hcompletes : WorkerWaits.Completes waits waits' w (.value ())) : WaitsAgree waits' (some w) false := by
  refine ⟨hholds, fun v => ?_, fun v hv => ?_⟩
  · by_cases hv : v = w
    · rw [hv, hcompletes.result]
      exact ⟨fun _ => rfl, fun _ => rfl⟩
    · have hnone := (h.received v).not.mpr (by simp)
      rw [result, hcompletes.other v hv]
      exact ⟨fun hvalue => absurd hvalue hnone, fun hsome => absurd (Option.some.inj hsome).symm hv⟩
  · cases hv
    exact ⟨fun hresumed => absurd hresumed hcompletes.resumed.2, by simp⟩

/-- A wait that goes on without the value. -/
theorem waitsAgree_outcome (h : WaitsAgree waits receiver taken) {w : Nat} {status : WorkerWaitStatus}
    (hholds : waits'.Holds) (hresumes : WorkerWaits.Resumes waits waits' w (.outcome status)) :
    WaitsAgree waits' receiver taken := by
  refine ⟨hholds, fun v => ?_, fun v hv => ?_⟩
  · rw [hresumes.results v]
    exact h.received v
  · have hne : v ≠ w := by
      rintro rfl
      have := (h.received v).mpr hv
      rw [hresumes.result] at this
      cases this
    rw [hresumes.other v hne]
    exact h.resumed v hv

/-- The wait that takes the value. -/
theorem waitsAgree_taken (h : WaitsAgree waits receiver taken) {w : Nat} (hholds : waits'.Holds)
    (hresumes : WorkerWaits.Resumes waits waits' w (.value ())) :
    receiver = some w ∧ taken = false ∧ WaitsAgree waits' receiver true := by
  have hw : receiver = some w := (h.received w).mp hresumes.result
  refine ⟨hw, ?_, hholds, fun v => ?_, fun v hv => ?_⟩
  · exact Bool.eq_false_iff.mpr fun htaken => hresumes.before ((h.resumed w hw).mpr htaken)
  · rw [hresumes.results v]
    exact h.received v
  · obtain rfl : w = v := by
      rw [hw] at hv
      exact Option.some.inj hv
    exact ⟨fun _ => rfl, fun _ => hresumes.resumed⟩

end

/-! ## Calls -/

variable {k : Nat}

theorem Agrees.call (h : s.Agrees stage) (hidle : s.calls k = .idle) (v : τ) :
    Agrees { s.setCall k (.called v) with submitted := update s.submitted k (some v) } stage := by
  have hnone := h.calls.idle k hidle
  have hne : ∀ j v', s.submitted j = some v' → j ≠ k := by
    rintro j v' hj rfl
    rw [hnone] at hj
    cases hj
  refine { h with calls := ⟨fun j phase => ?_, fun j v' => ?_, fun j => ?_, fun j v' hvalue => ?_⟩ }
  · show (update s.calls k (.called v) j).phase = some phase ↔ _
    by_cases hj : j = k
    · rw [hj, update_self, ← h.calls.owner k phase, hidle]
      rfl
    · rw [update_of_ne hj]
      exact h.calls.owner j phase
  · show (update s.calls k (.called v) j).held = some v' → update s.submitted k (some v) j = _
    by_cases hj : j = k
    · rw [hj, update_self, update_self]
      exact id
    · rw [update_of_ne hj, update_of_ne hj]
      exact h.calls.held j v'
  · show update s.calls k (.called v) j = .idle → update s.submitted k (some v) j = none
    by_cases hj : j = k
    · rw [hj, update_self]
      exact nofun
    · rw [update_of_ne hj, update_of_ne hj]
      exact h.calls.idle j
  · have hj := h.calls.value j v' hvalue
    show update s.submitted k (some v) j = some v'
    rw [update_of_ne (hne j v' hj)]
    exact hj

/-- A call that is refused at once. -/
theorem Agrees.reject (h : s.Agrees stage) {v : τ} (hcall : s.calls k = .called v) (status : OneShotCompleteStatus) :
    (s.setCall k (.rejected status v)).Agrees stage := by
  have hcalls : CallsAgree (update s.calls k (.rejected status v)) s.submitted stage.owner stage.value :=
    callsAgree_aside h.calls (by rw [hcall]; rfl) rfl
      (fun v' hv => h.calls.held k v' (by rw [hcall]; exact hv)) nofun
  exact { h with calls := hcalls }

theorem Stage.idle_of_pending {stage : Stage τ} (h : stage.Allows .pending) : stage = .idle := by
  cases stage <;> simp_all [Stage.Allows]

section

variable (h : s.Agrees stage)
include h

theorem Agrees.claim {v : τ} (hcall : s.calls k = .called v) (accepting : Bool) :
    ∃ stage', (s.claim k v accepting).Agrees stage' := by
  unfold OneShot.claim
  split
  all_goals first
    | exact ⟨stage, h.reject hcall _⟩
    | skip
  rename_i hlifecycle
  split
  · exact ⟨stage, h.reject hcall _⟩
  · obtain rfl : stage = .idle := Stage.idle_of_pending (hlifecycle ▸ h.lifecycle)
    refine ⟨.claimed k, { h with calls := ?_, lifecycle := .inl rfl, waiter := fun _ => .inr rfl }⟩
    exact callsAgree_next h.calls (by simp [Stage.owner]) rfl
      (fun v' hv => h.calls.held k v' (by rw [hcall]; exact hv)) nofun nofun

/-- The stage in which a call is concerned with the slot. -/
theorem Agrees.stage_owner {phase : CompletePhase} (hcall : (s.calls k).phase = some phase) :
    stage.owner = some (k, phase) := (h.calls.owner k phase).mp hcall

theorem Agrees.emplace {v : τ} (hcall : s.calls k = .claimed v) (throws : Bool) :
    ∃ stage', Agrees (if throws then s.setCall k (.restoring v)
      else { s.setCall k .stored with readyValue := some v }) stage' := by
  have howner := h.stage_owner (k := k) (by rw [hcall]; rfl)
  have hsubmitted := h.calls.held k v (by rw [hcall]; rfl)
  obtain rfl : stage = .claimed k := by
    cases stage <;> simp_all [Stage.owner]
  cases throws with
  | true =>
    refine ⟨.restoring k, { h with calls := ?_ }⟩
    exact callsAgree_next h.calls (by simp [Stage.owner]) rfl (fun _ => hsubmitted.trans) nofun nofun
  | false =>
    refine ⟨.stored k v, { h with calls := ?_, slot := rfl }⟩
    exact callsAgree_next h.calls (by simp [Stage.owner]) rfl nofun nofun
      (fun j v' hv => by cases hv; exact hsubmitted)

theorem Agrees.restore {v : τ} (hcall : s.calls k = .restoring v) : (s.restore k v).Agrees .idle := by
  have howner := h.stage_owner (k := k) (by rw [hcall]; rfl)
  have hsubmitted := h.calls.held k v (by rw [hcall]; rfl)
  obtain rfl : stage = .restoring k := by
    cases stage <;> simp_all [Stage.owner]
  refine { h with calls := ?_, lifecycle := ?_, waiter := fun hwaiter => ?_ }
  · exact callsAgree_next h.calls (by simp [Stage.owner]) rfl (fun _ => hsubmitted.trans) nofun nofun
  · have hlifecycle := h.lifecycle
    show Stage.Allows .idle (if s.lifecycle = .completing then .pending else s.lifecycle)
    split
    · exact .inl rfl
    · rename_i hne
      exact .inr (hlifecycle.resolve_left hne)
  · show (if s.lifecycle = .completing then .pending else s.lifecycle) = .pending ∨
      (if s.lifecycle = .completing then .pending else s.lifecycle) = .completing
    split
    · exact .inl rfl
    · exact h.waiter hwaiter

theorem Agrees.publish (hcall : s.calls k = .stored) (accepting : Bool) :
    ∃ stage', (s.publish k accepting).Agrees stage' := by
  have howner := h.stage_owner (k := k) (by rw [hcall]; rfl)
  obtain ⟨v, rfl⟩ : ∃ v, stage = .stored k v := by
    cases stage <;> simp_all [Stage.owner]
  have hreject : ∀ status, CallsAgree (update s.calls k (.rejecting status)) s.submitted
      (Stage.rejecting k v).owner (Stage.rejecting k v).value := fun status =>
    callsAgree_next h.calls (by simp [Stage.owner]) rfl nofun nofun h.calls.value
  have haccept : ∀ stage' : Stage τ, stage'.owner = some (k, .accepted) → stage'.value = some (k, v) →
      CallsAgree (update s.calls k .accepted) s.submitted stage'.owner stage'.value := by
    intro stage' howner' hvalue'
    rw [howner', hvalue']
    exact callsAgree_next h.calls (by simp [Stage.owner]) rfl nofun nofun h.calls.value
  unfold OneShot.publish
  split
  · rename_i hlifecycle
    exact ⟨.rejecting k v, { h with calls := hreject _, lifecycle := .inl hlifecycle }⟩
  · rename_i hclosed
    split
    · obtain ⟨hholds, hquiet, hwaiter⟩ := complete_outcome h.waits.holds .workerStopping
      refine ⟨.rejecting k v, { h with
          calls := hreject _
          waits := waitsAgree_quiet h.waits hholds hquiet
          lifecycle := .inr rfl
          waiter := fun hsome => ?_ }⟩
      rw [show (s.waits.complete (.outcome .workerStopping)).waiter = none from hwaiter] at hsome
      cases hsome
    · rename_i hstopping
      split
      · rename_i hoccupied
        obtain ⟨w, hw⟩ := Option.isSome_iff_exists.mp hoccupied
        obtain ⟨hholds, hcompletes, hwaiter⟩ := complete_attached h.waits.holds hw (.value ())
        refine ⟨.committed k v w, { h with
            calls := haccept (.committed k v w) rfl rfl
            waits := waitsAgree_completes h.waits hholds hcompletes
            lifecycle := rfl
            waiter := fun hsome => ?_ }⟩
        rw [show (s.waits.complete (.value ())).waiter = none from hwaiter] at hsome
        cases hsome
      · rename_i hoccupied
        exact ⟨.ready k v, { h with
            calls := haccept (.ready k v) rfl rfl
            lifecycle := rfl
            waiter := fun hsome => absurd hsome hoccupied }⟩

theorem Agrees.takeBack {status : OneShotCompleteStatus} (hcall : s.calls k = .rejecting status) :
    ∃ v, s.readyValue = some v ∧ (s.takeBack k status).Agrees .idle := by
  have howner := h.stage_owner (k := k) (by rw [hcall]; rfl)
  obtain ⟨v, rfl⟩ : ∃ v, stage = .rejecting k v := by
    cases stage <;> simp_all [Stage.owner]
  have hslot := h.slot
  have hsubmitted := h.calls.value k v rfl
  refine ⟨v, hslot, ?_⟩
  unfold OneShot.takeBack
  rw [hslot]
  refine { h with calls := ?_, lifecycle := .inr h.lifecycle, slot := rfl }
  exact callsAgree_next h.calls (by simp [Stage.owner]) rfl (fun _ => hsubmitted.trans) nofun nofun

/-! ## Waits -/

theorem Agrees.quietWaits {waits : WorkerWaits Unit} (hwaits : waits.Holds ∧ WorkerWaits.Quiet s.waits waits ∧
    ∀ v, waits.waiter = some v → s.waits.waiter = some v) : Agrees { s with waits } stage := by
  obtain ⟨hholds, hquiet, hwaiter⟩ := hwaits
  refine { h with waits := waitsAgree_quiet h.waits hholds hquiet, waiter := fun hsome => ?_ }
  obtain ⟨v, hv⟩ := Option.isSome_iff_exists.mp hsome
  exact h.waiter (by rw [hwaiter v hv]; rfl)

theorem Agrees.completeReady {w : Nat} (hcold : (s.waits.awaiters w).progress = .cold) (status : WorkerWaitStatus) :
    Agrees { s with waits := s.waits.completeReady w (.outcome status) } stage := by
  obtain ⟨hholds, hcompletes, hwaiter⟩ := completeReady_spec h.waits.holds hcold (.outcome status)
  exact h.quietWaits ⟨hholds, hcompletes.quiet, fun v hv => hwaiter ▸ hv⟩

theorem Agrees.awaitReady {w : Nat} (hcold : (s.waits.awaiters w).progress = .cold)
    (stopRequested expired stoppable : Bool) :
    ∃ stage', (s.awaitReady w stopRequested expired stoppable).Agrees stage' := by
  have hpublish : (s.lifecycle = .pending ∨ s.lifecycle = .completing) →
      Agrees { s with waits := s.waits.completeOrPublish w stopRequested expired stoppable } stage := by
    intro hopen
    obtain ⟨hholds, hquiet, _⟩ :=
      completeOrPublish_spec h.waits.holds hcold stopRequested expired stoppable
    exact { h with waits := waitsAgree_quiet h.waits hholds hquiet, waiter := fun _ => hopen }
  unfold OneShot.awaitReady
  split
  · rename_i hlifecycle
    obtain ⟨k, v, rfl⟩ : ∃ k v, stage = .ready k v := by
      have hallows := h.lifecycle
      cases stage <;> simp_all [Stage.Allows]
    obtain ⟨hholds, hcompletes, hwaiter⟩ := completeReady_spec h.waits.holds hcold (.value ())
    refine ⟨.committed k v w, { h with
        waits := waitsAgree_completes h.waits hholds hcompletes
        lifecycle := rfl
        waiter := fun hsome => ?_ }⟩
    rw [show (s.waits.completeReady w (.value ())).waiter = s.waits.waiter from hwaiter] at hsome
    rcases h.waiter hsome with hopen | hopen
    all_goals
      rw [hlifecycle] at hopen
      cases hopen
  · exact ⟨stage, h.completeReady hcold _⟩
  · exact ⟨stage, h.completeReady hcold _⟩
  · exact ⟨stage, h.completeReady hcold _⟩
  · rename_i hlifecycle
    exact ⟨stage, hpublish (.inl hlifecycle)⟩
  · rename_i hlifecycle
    exact ⟨stage, hpublish (.inr hlifecycle)⟩

theorem Agrees.awaitResume {w : Nat} {t : OneShot τ} (hresume : s.awaitResume w = some t) :
    ∃ stage', t.Agrees stage' := by
  unfold OneShot.awaitResume at hresume
  split at hresume
  · cases hresume
  · rename_i waits status hwaits
    cases hresume
    obtain ⟨hholds, hresumes⟩ := awaitResume_spec h.waits.holds hwaits
    refine ⟨stage, { h with waits := waitsAgree_outcome h.waits hholds hresumes, waiter := fun hsome => ?_ }⟩
    exact h.waiter (hresumes.waiter ▸ hsome)
  · rename_i waits hwaits
    obtain ⟨hholds, hresumes⟩ := awaitResume_spec h.waits.holds hwaits
    obtain ⟨hreceiver, htaken, hwaitsAgree⟩ := waitsAgree_taken h.waits hholds hresumes
    obtain ⟨k, v, rfl⟩ : ∃ k v, stage = .committed k v w := by
      cases stage <;> simp_all [Stage.receiver, Stage.taker]
    have hslot := h.slot
    split at hresume
    · rename_i hnone
      rw [hnone] at hslot
      cases hslot
    · rename_i value hsome
      cases hresume
      obtain rfl : value = v := by
        rw [hsome] at hslot
        exact Option.some.inj hslot
      refine ⟨.delivered k value w, { h with
          waits := hreceiver ▸ hwaitsAgree
          waiter := fun hsome => h.waiter (hresumes.waiter ▸ hsome)
          slot := rfl
          delivered := fun v' x => ?_ }⟩
      have hbefore := h.delivered v' x
      show update s.delivered w (some value) v' = some x ↔ some (w, value) = some (v', x)
      by_cases hv : v' = w
      · rw [hv, update_self]
        simp
      · rw [update_of_ne hv, hbefore]
        simp [Stage.taker, Ne.symm hv]

/-! ## The ends -/

theorem Agrees.close {c : Nat} (hidle : s.closes c = .idle) : ∃ stage', (s.close c).Agrees stage' := by
  obtain ⟨hholds, hquiet, hwaiter⟩ := complete_outcome h.waits.holds .closed
  have hnone : (s.waits.complete (.outcome .closed)).waiter.isSome = true → False := by
    intro hsome
    rw [hwaiter] at hsome
    cases hsome
  have hnot : stage.discarder ≠ some c := by
    intro hc
    rw [(h.discarder c).mpr hc] at hidle
    cases hidle
  have hreturned : ∀ j, update s.closes c .returned j = .discarding ↔ stage.discarder = some j := by
    intro j
    by_cases hj : j = c
    · rw [hj, update_self]
      exact ⟨nofun, fun heq => absurd heq hnot⟩
    · rw [update_of_ne hj]
      exact h.discarder j
  have hopen : stage.Allows .receiverClosed → s.lifecycle ≠ .ready → Agrees
      { s with
        lifecycle := .receiverClosed
        waits := s.waits.complete (.outcome .closed)
        closes := update s.closes c (if s.lifecycle = .ready then .discarding else .returned) } stage := by
    intro hallows hnotReady
    rw [if_neg hnotReady]
    exact { h with
        waits := waitsAgree_quiet h.waits hholds hquiet
        lifecycle := hallows
        waiter := fun hsome => (hnone hsome).elim
        discarder := hreturned }
  have hallows := h.lifecycle
  unfold OneShot.close
  split
  · rename_i hlifecycle
    obtain ⟨k, v, rfl⟩ : ∃ k v, stage = .ready k v := by
      cases stage <;> simp_all [Stage.Allows]
    refine ⟨.discarding k v c, { h with
        waits := waitsAgree_quiet h.waits hholds hquiet
        lifecycle := rfl
        waiter := fun hsome => (hnone hsome).elim
        discarder := fun j => ?_ }⟩
    show update s.closes c _ j = .discarding ↔ some c = some j
    rw [if_pos hlifecycle]
    by_cases hj : j = c
    · rw [hj, update_self]
      exact ⟨fun _ => rfl, fun _ => rfl⟩
    · rw [update_of_ne hj, h.discarder j]
      exact ⟨nofun, fun heq => absurd (Option.some.inj heq).symm hj⟩
  · rename_i hlifecycle
    rw [hlifecycle] at hallows
    obtain rfl := Stage.idle_of_pending hallows
    exact ⟨.idle, hopen (.inr (.inl rfl)) (by rw [hlifecycle]; rintro ⟨⟩)⟩
  · rename_i hlifecycle
    refine ⟨stage, hopen ?_ (by rw [hlifecycle]; rintro ⟨⟩)⟩
    cases stage <;> simp_all [Stage.Allows]
  all_goals
    exact ⟨stage, { h with discarder := hreturned }⟩

theorem Agrees.discard {c : Nat} (hdiscarding : s.closes c = .discarding) :
    ∃ stage', Agrees
      { s with
        closes := update s.closes c .returned
        destroyed := s.destroyed ++ s.readyValue.toList
        readyValue := none } stage' := by
  have hdiscarder := (h.discarder c).mp hdiscarding
  obtain ⟨k, v, rfl⟩ : ∃ k v, stage = .discarding k v c := by
    cases stage <;> simp_all [Stage.discarder]
  have hdestroyed := h.destroyed
  refine ⟨.destroyed k v, { h with
      slot := rfl
      discarder := fun j => ?_
      destroyed := ?_ }⟩
  · show update s.closes c .returned j = .discarding ↔ none = some j
    by_cases hj : j = c
    · rw [hj, update_self]
      exact ⟨nofun, nofun⟩
    · rw [update_of_ne hj, h.discarder j]
      exact ⟨fun heq => absurd (Option.some.inj heq).symm hj, nofun⟩
  · rw [hdestroyed, h.slot]
    rfl

theorem Agrees.workerStopping : s.workerStopping.Agrees stage := by
  obtain ⟨hholds, hquiet, hwaiter⟩ := complete_outcome h.waits.holds .workerStopping
  refine { h with waits := waitsAgree_quiet h.waits hholds hquiet, lifecycle := ?_, waiter := fun hsome => ?_ }
  · have hallows := h.lifecycle
    show stage.Allows (if _ then _ else _)
    split
    · rename_i hopen
      cases stage <;> simp_all [Stage.Allows]
    · exact hallows
  · rw [show s.workerStopping.waits.waiter = none from hwaiter] at hsome
    cases hsome

/-- **Every action leads from stage to stage.** -/
theorem Agrees.step {action : OneShotAction τ} {t : OneShot τ} (hstep : s.step action = some t) :
    ∃ stage', t.Agrees stage' := by
  unfold OneShot.step at hstep
  split at hstep
  · split at hstep <;> cases hstep
    exact ⟨stage, h.call ‹_› _⟩
  · split at hstep <;> cases hstep
    exact h.claim ‹_› _
  · split at hstep <;> cases hstep
    exact h.emplace ‹_› _
  · split at hstep <;> cases hstep
    exact ⟨.idle, h.restore ‹_›⟩
  · split at hstep <;> cases hstep
    exact h.publish ‹_› _
  · split at hstep <;> cases hstep
    rename_i hcall
    obtain ⟨_, _, hagrees⟩ := h.takeBack hcall
    exact ⟨.idle, hagrees⟩
  · split at hstep <;> cases hstep
    exact h.awaitReady ‹_› _ _ _
  · split at hstep <;> cases hstep
    exact ⟨stage, h.quietWaits (suspend_spec h.waits.holds ‹_› _ _)⟩
  · obtain ⟨waits, hfires, rfl⟩ := Option.map_eq_some_iff.mp hstep
    exact ⟨stage, h.quietWaits (timerFires_spec h.waits.holds hfires)⟩
  · obtain ⟨waits, hfires, rfl⟩ := Option.map_eq_some_iff.mp hstep
    exact ⟨stage, h.quietWaits (stopFires_spec h.waits.holds hfires)⟩
  · exact h.awaitResume hstep
  · split at hstep <;> cases hstep
    exact h.close ‹_›
  · split at hstep <;> cases hstep
    exact h.discard ‹_›
  · cases hstep
    exact ⟨stage, h.workerStopping⟩

end

theorem init_agrees : Agrees ({} : OneShot τ) .idle where
  calls := ⟨fun _ _ => ⟨nofun, nofun⟩, nofun, fun _ _ => rfl,
    nofun⟩
  waits := ⟨⟨rfl, fun _ => ⟨nofun, rfl, rfl, rfl⟩⟩,
    fun _ => ⟨nofun, nofun⟩, nofun⟩
  lifecycle := .inl rfl
  waiter h := by cases h
  slot := rfl
  delivered _ _ := ⟨nofun, nofun⟩
  discarder _ := ⟨nofun, nofun⟩
  destroyed := rfl
  undefined := rfl

/-- Every reachable state stands at some stage. -/
theorem agrees_of_reachable (h : (oneShotMachine τ).Reachable s) : ∃ stage, s.Agrees stage := by
  refine StateMachine.Reachable.invariant (P := fun s => ∃ stage, s.Agrees stage) ?_ ?_ h
  · rintro s rfl
    exact ⟨.idle, init_agrees⟩
  · rintro s action t ⟨stage, hagrees⟩ hstep
    exact hagrees.step hstep

/-! ## Terminal lifecycles -/

theorem Agrees.lifecycle_step (h : s.Agrees stage) (hterminal : s.lifecycle.isTerminal = true)
    {action : OneShotAction τ} {t : OneShot τ} (hstep : s.step action = some t) : t.lifecycle = s.lifecycle := by
  have hne : s.lifecycle ≠ .pending ∧ s.lifecycle ≠ .completing ∧ s.lifecycle ≠ .ready := by
    refine ⟨?_, ?_, ?_⟩ <;> intro heq <;> rw [heq] at hterminal <;> cases hterminal
  obtain ⟨hpending, hcompleting, hready⟩ := hne
  unfold OneShot.step at hstep
  split at hstep
  · split at hstep <;> cases hstep
    rfl
  · split at hstep <;> cases hstep
    unfold OneShot.claim
    split
    all_goals first
      | rfl
      | exact absurd ‹_› hpending
  · split at hstep <;> cases hstep
    split <;> rfl
  · split at hstep <;> cases hstep
    exact if_neg hcompleting
  · split at hstep <;> cases hstep
    rename_i hcall
    have hallows : s.lifecycle = .receiverClosed ∨ s.lifecycle = .workerStopping := by
      have howner := h.stage_owner (by rw [hcall]; rfl)
      have := h.lifecycle
      cases stage <;> simp_all [Stage.owner, Stage.Allows]
    unfold OneShot.publish
    split
    · rfl
    · rename_i hclosed
      rw [if_pos (.inl (hallows.resolve_left hclosed))]
      exact (hallows.resolve_left hclosed).symm
  · split at hstep <;> cases hstep
    unfold OneShot.takeBack
    split <;> rfl
  · split at hstep <;> cases hstep
    unfold OneShot.awaitReady
    split
    all_goals first
      | rfl
      | exact absurd ‹_› hready
  · split at hstep <;> cases hstep
    rfl
  · obtain ⟨waits, _, rfl⟩ := Option.map_eq_some_iff.mp hstep
    rfl
  · obtain ⟨waits, _, rfl⟩ := Option.map_eq_some_iff.mp hstep
    rfl
  · unfold OneShot.awaitResume at hstep
    split at hstep
    · cases hstep
    · cases hstep
      rfl
    · split at hstep <;> cases hstep <;> rfl
  · split at hstep <;> cases hstep
    unfold OneShot.close
    split
    all_goals first
      | rfl
      | exact absurd ‹_› hpending
      | exact absurd ‹_› hcompleting
      | exact absurd ‹_› hready
  · split at hstep <;> cases hstep
    rfl
  · cases hstep
    exact if_neg fun hopen => hopen.elim hpending hcompleting

/-- **A terminal lifecycle is never left.** -/
theorem lifecycle_absorbing (h : (oneShotMachine τ).Reachable s) (hterminal : s.lifecycle.isTerminal = true)
    {t : OneShot τ} (hreaches : (oneShotMachine τ).Reaches s t) : t.lifecycle = s.lifecycle := by
  refine StateMachine.Reaches.stable (P := fun t => t.lifecycle = s.lifecycle) (fun u action v hu heq hstep => ?_) h
    hreaches rfl
  obtain ⟨stage, hagrees⟩ := agrees_of_reachable hu
  exact (hagrees.lifecycle_step (heq ▸ hterminal) hstep).trans heq

/-! ## Where the value ends -/

/-- The value is on its way: in the slot, and nowhere else. -/
def Underway (s : OneShot τ) (v : τ) : Prop :=
  s.readyValue = some v ∧ s.destroyed = [] ∧ ∀ w, s.delivered w = none

/-- Exactly one wait took the value. -/
def DeliveredOnce (s : OneShot τ) (v : τ) : Prop :=
  s.readyValue = none ∧ s.destroyed = [] ∧ ∃ w, s.delivered w = some v ∧ ∀ w' v', s.delivered w' = some v' → w' = w

/-- A close destroyed the value. -/
def DestroyedByClose (s : OneShot τ) (v : τ) : Prop :=
  s.readyValue = none ∧ s.destroyed = [v] ∧ ∀ w, s.delivered w = none

/-- The accepted call is the owner of a stage that holds its value. -/
theorem Agrees.accepted (h : s.Agrees stage) (haccepted : s.calls k = .accepted) :
    ∃ v, s.submitted k = some v ∧ (s.Underway v ∨ s.DeliveredOnce v ∨ s.DestroyedByClose v) := by
  have howner := h.stage_owner (k := k) (by rw [haccepted]; rfl)
  have hnone : stage.taker = none → ∀ w, s.delivered w = none := by
    intro htaker w
    rw [Option.eq_none_iff_forall_ne_some]
    intro v hv
    rw [h.delivered, htaker] at hv
    cases hv
  have hslot := h.slot
  have hdestroyed := h.destroyed
  cases stage with
  | idle | claimed _ | restoring _ | stored _ _ | rejecting _ _ => cases howner
  | ready j v | committed j v w | discarding j v c =>
    cases howner
    exact ⟨v, h.calls.value k v rfl, .inl ⟨hslot, hdestroyed, hnone rfl⟩⟩
  | delivered j v w =>
    cases howner
    refine ⟨v, h.calls.value k v rfl, .inr (.inl ⟨hslot, hdestroyed, w, (h.delivered w v).mpr rfl, ?_⟩)⟩
    intro w' v' hv
    have := (h.delivered w' v').mp hv
    cases this
    rfl
  | destroyed j v =>
    cases howner
    exact ⟨v, h.calls.value k v rfl, .inr (.inr ⟨hslot, hdestroyed, hnone rfl⟩)⟩

/-- What came out of the exchange, or is still in it, came from the accepted call. -/
theorem Agrees.origin (h : s.Agrees stage) {v : τ} (hout : (∃ w, s.delivered w = some v) ∨ v ∈ s.destroyed) :
    ∃ k, s.calls k = .accepted ∧ s.submitted k = some v := by
  have haccepted : ∀ k, stage.owner = some (k, .accepted) → s.calls k = .accepted := by
    intro k howner
    have := (h.calls.owner k .accepted).mpr howner
    cases hcall : s.calls k <;> rw [hcall] at this <;> first | rfl | cases this
  rcases hout with ⟨w, hw⟩ | hmem
  · have htaker := (h.delivered w v).mp hw
    cases stage with
    | delivered k v' w' =>
      cases htaker
      exact ⟨k, haccepted k rfl, h.calls.value k v rfl⟩
    | _ => cases htaker
  · rw [h.destroyed] at hmem
    cases stage with
    | destroyed k v' =>
      obtain rfl := List.mem_singleton.mp hmem
      exact ⟨k, haccepted k rfl, h.calls.value k v rfl⟩
    | _ => cases hmem

/-- Nothing moves the value any more: the exchange is decided, no close is destroying it, and every wait that was
completed with it went on. -/
structure Settled (s : OneShot τ) : Prop where
  terminal : s.lifecycle.isTerminal = true
  closes : ∀ c, s.closes c ≠ .discarding
  waits : ∀ w, s.waits.result w = some (.value ()) → (s.waits.awaiters w).progress = .resumed

theorem Agrees.not_underway (h : s.Agrees stage) (hsettled : s.Settled) (haccepted : s.calls k = .accepted) (v : τ) :
    ¬ s.Underway v := by
  rintro ⟨hslot, hdestroyed, hdelivered⟩
  have howner := h.stage_owner (k := k) (by rw [haccepted]; rfl)
  have hterminal := hsettled.terminal
  cases stage with
  | idle | claimed _ | restoring _ | stored _ _ | rejecting _ _ => cases howner
  | ready j v' =>
    rw [show s.lifecycle = .ready from h.lifecycle] at hterminal
    cases hterminal
  | committed j v' w =>
    have hresumed := (h.waits.resumed w rfl).mp (hsettled.waits w ((h.waits.received w).mpr rfl))
    cases hresumed
  | discarding j v' c => exact hsettled.closes c ((h.discarder c).mpr rfl)
  | delivered j v' w | destroyed j v' =>
    rw [h.slot] at hslot
    cases hslot

end OneShot

end Ruvia.Core
