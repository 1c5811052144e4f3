import Ruvia.Library.IntrusiveList
import Ruvia.Library.StateMachine

/-!
# `Core.StopToken` — stop requests and the registrations of their callbacks

`stop_token.h` and `stop_token.cpp`. Threads call `request_stop`, `register_callback` and `reset` on any states and
registrations, the destructor of a registration being a `reset`; each call is a frame on its thread's stack, and every
atomic operation and every section under the mutex of a state is one step. Where a frame runs code of the callback — the
callback itself, or the moves and the destructor of the callable — that code may call anything again, which is also what
the callbacks of a `stop_group` do, whose parents' registrations request the stop of its own state. The program ends
when `std::terminate` is called for a registration that is registered twice; the other `std::terminate` is the `fault`.

A callback is named by the call of `register_callback` that it was given to. Its `stage` and its `runs` are history.
-/

namespace Ruvia.Core

open Library

namespace StopToken

/-- `stop_registration_phase`. -/
inductive RegistrationPhase where
  | idle
  | registering
  | registered
  | resetPending
  | resetting
  deriving DecidableEq, Repr

/-- Where a callback stands; threads are those on which it is registered or runs. -/
inductive CallbackStage where
  | unborn
  | entering (thread : Nat)
  | registering (thread : Nat)
  | listed
  | taken (thread : Nat)
  | running (thread : Nat) (direct : Bool)
  | returned
  | removed
  | ignored
  deriving DecidableEq, Repr

/-- `stop_state`. -/
structure StopState where
  source : Bool := true
  requested : Bool := false
  callbacks : IntrusiveList Nat := .empty
  running : Option Nat := none
  requester : Option Nat := none
  runAwaited : Bool := false
  runEpoch : Nat := 0

/-- `stop_callback_state` and `stop_callback_node`, less the links. -/
structure Callback where
  state : Nat := 0
  registration : Nat := 0
  invoked : Bool := false
  stage : CallbackStage := .unborn
  runs : Nat := 0
  deriving DecidableEq, Repr

/-- `stop_registration`. -/
structure Registration where
  phase : RegistrationPhase := .idle
  callback : Option Nat := none
  deriving DecidableEq, Repr

/-! ## The sections under the mutex -/

namespace StopState

/-- `stop_possible`. -/
def stopPossible (stop : StopState) : Bool := stop.source || stop.requested

/-- The head of the loop of `request_stop`: the first callback is taken off the list, if there is one. -/
def takeFirst (stop : StopState) : StopState × Option Nat :=
  match stop.callbacks.first with
  | none => (stop, none)
  | some callback =>
    ({ stop with callbacks := stop.callbacks.unlink callback, running := some callback }, some callback)

/-- The front of `request_stop`, for a stop that has not been requested. -/
def beginRequest (stop : StopState) (thread : Nat) : StopState × Option Nat :=
  { stop with requested := true, requester := some thread }.takeFirst

/-- `request_stop`, behind the run of a callback. -/
def finishRun (stop : StopState) : StopState × Option Nat :=
  { stop with
    running := none
    runAwaited := false
    runEpoch := if stop.runAwaited then stop.runEpoch + 1 else stop.runEpoch }.takeFirst

/-- How an `unlink` goes on: it returns, having unlinked the callback or not, or waits for the end of a run. -/
inductive Unlinked where
  | removed
  | returned
  | waits (epoch : Nat)
  deriving DecidableEq, Repr

/-- `unlink`, up to its loop, and the loop's first test. -/
def unlink (stop : StopState) (thread callback : Nat) : StopState × Unlinked :=
  if stop.callbacks.linked callback then ({ stop with callbacks := stop.callbacks.unlink callback }, .removed)
  else if stop.running ≠ some callback then (stop, .returned)
  else if stop.requester = some thread then (stop, .returned)
  else ({ stop with runAwaited := true }, .waits stop.runEpoch)

/-- The loop of `unlink`, behind a wait. -/
def awaitRun (stop : StopState) (callback : Nat) : StopState × Unlinked :=
  if stop.running = some callback then ({ stop with runAwaited := true }, .waits stop.runEpoch)
  else (stop, .returned)

end StopState

/-! ## The threads -/

/-- Where a `request_stop` stands. -/
inductive RequestPoint where
  | enter
  | invoke (callback : Nat)
  | calling (callback : Nat)
  | finish (callback : Nat)
  deriving DecidableEq, Repr

/-- Where a `register_callback` stands. -/
inductive RegisterPoint where
  | possible
  | requested
  | claim
  | link
  | unlink
  | wait (epoch : Nat)
  | again
  | take
  | exchange (hasValue : Bool)
  | calling
  deriving DecidableEq, Repr

/-- Where a `reset` stands; `test` has the phase that was read last. -/
inductive ResetPoint where
  | load
  | test (phase : RegistrationPhase)
  | clear
  | wait (callback epoch : Nat)
  | again (callback : Nat)
  | store (callback : Option Nat)
  deriving DecidableEq, Repr

inductive Frame where
  | requestStop (state : Nat) (point : RequestPoint)
  | register (registration callback : Nat) (point : RegisterPoint)
  | reset (registration : Nat) (point : ResetPoint)
  deriving DecidableEq, Repr

/-- The frame runs code of a callback, which may call anything. -/
def Frame.runsCode : Frame → Bool
  | .requestStop _ (.calling _) => true
  | .register _ _ .link => true
  | .register _ _ (.exchange _) => true
  | .register _ _ .calling => true
  | .reset _ (.store _) => true
  | _ => false

end StopToken

open StopToken

/-- The states, the registrations, the callbacks and the threads of a program, and whether it has ended. -/
structure StopTokens where
  stops : Nat → StopState := fun _ => {}
  registrations : Nat → Registration := fun _ => {}
  callbacks : Nat → Callback := fun _ => {}
  nextCallback : Nat := 0
  threads : Nat → List Frame := fun _ => []
  terminated : Bool := false
  fault : Bool := false

/-- What a thread may call. -/
inductive StopCall where
  | requestStop (state : Nat)
  | register (registration state : Nat)
  | reset (registration : Nat)
  deriving DecidableEq, Repr

/-- A thread calls something, goes on in its innermost call, or the callback that it runs returns; a source retires. -/
inductive StopAction where
  | call (thread : Nat) (call : StopCall)
  | go (thread : Nat)
  | leave (thread : Nat)
  | retire (state : Nat)
  deriving DecidableEq, Repr

namespace StopTokens

def setStop (s : StopTokens) (state : Nat) (stop : StopState) : StopTokens :=
  { s with stops := Function.update s.stops state stop }

def setRegistration (s : StopTokens) (registration : Nat) (value : Registration) : StopTokens :=
  { s with registrations := Function.update s.registrations registration value }

def setCallback (s : StopTokens) (callback : Nat) (value : Callback) : StopTokens :=
  { s with callbacks := Function.update s.callbacks callback value }

def setThread (s : StopTokens) (thread : Nat) (frames : List Frame) : StopTokens :=
  { s with threads := Function.update s.threads thread frames }

def setStage (s : StopTokens) (callback : Nat) (stage : CallbackStage) : StopTokens :=
  s.setCallback callback { s.callbacks callback with stage := stage }

/-- The callback begins to run. -/
def begin (s : StopTokens) (callback thread : Nat) (direct : Bool) : StopTokens :=
  s.setCallback callback { s.callbacks callback with
    invoked := true
    stage := .running thread direct
    runs := (s.callbacks callback).runs + 1 }

/-- A frame that has been called, with its callback for a registration. -/
def call (s : StopTokens) (thread : Nat) : StopCall → StopTokens
  | .requestStop state => s.setThread thread (.requestStop state .enter :: s.threads thread)
  | .register registration state =>
    let entered := s.setCallback s.nextCallback
      { state := state, registration := registration, stage := .entering thread }
    { entered.setThread thread (.register registration s.nextCallback .possible :: s.threads thread) with
      nextCallback := s.nextCallback + 1 }
  | .reset registration => s.setThread thread (.reset registration .load :: s.threads thread)

/-- The loop of `request_stop` goes on with the next callback or ends. -/
def continueRequest (s : StopTokens) (thread state : Nat) (rest : List Frame) (next : StopState × Option Nat) :
    StopTokens :=
  match next.2 with
  | none => (s.setStop state next.1).setThread thread rest
  | some callback =>
    ((s.setStop state next.1).setStage callback (.taken thread)).setThread thread
      (.requestStop state (.invoke callback) :: rest)

def goRequest (s : StopTokens) (thread state : Nat) (rest : List Frame) : RequestPoint → StopTokens
  | .enter =>
    if (s.stops state).requested then s.setThread thread rest
    else s.continueRequest thread state rest ((s.stops state).beginRequest thread)
  | .invoke callback =>
    if (s.callbacks callback).invoked then
      s.setThread thread (.requestStop state (.finish callback) :: rest)
    else
      (s.begin callback thread false).setThread thread (.requestStop state (.calling callback) :: rest)
  | .calling _ => s
  | .finish _ => s.continueRequest thread state rest (s.stops state).finishRun

/-- The section of `link`. -/
def goLink (s : StopTokens) (thread registration callback : Nat) (rest : List Frame) : StopTokens :=
  let state := (s.callbacks callback).state
  if (s.stops state).requested then s.setThread thread (.register registration callback .unlink :: rest)
  else
    match (s.registrations registration).phase with
    | .registering =>
      (((s.setRegistration registration { s.registrations registration with phase := .registered }).setStop state
        { s.stops state with callbacks := (s.stops state).callbacks.pushFront callback }).setStage callback
          .listed).setThread thread rest
    | .resetPending => s.setThread thread (.register registration callback .unlink :: rest)
    | _ => { s with fault := true }

/-- An `unlink` of `register_callback` has come to its end or waits. -/
def afterUnlink (s : StopTokens) (thread registration callback : Nat) (rest : List Frame)
    (result : StopState × StopState.Unlinked) : StopTokens :=
  let s := s.setStop (s.callbacks callback).state result.1
  match result.2 with
  | .removed => (s.setStage callback .removed).setThread thread (.register registration callback .take :: rest)
  | .returned => s.setThread thread (.register registration callback .take :: rest)
  | .waits epoch => s.setThread thread (.register registration callback (.wait epoch) :: rest)

def goRegister (s : StopTokens) (thread registration callback : Nat) (rest : List Frame) : RegisterPoint → StopTokens
  | .possible =>
    if (s.stops (s.callbacks callback).state).stopPossible then
      s.setThread thread (.register registration callback .requested :: rest)
    else (s.setStage callback .ignored).setThread thread rest
  | .requested =>
    if (s.stops (s.callbacks callback).state).requested then
      (s.begin callback thread true).setThread thread (.register registration callback .calling :: rest)
    else s.setThread thread (.register registration callback .claim :: rest)
  | .claim =>
    if (s.registrations registration).phase = .idle then
      ((s.setRegistration registration { phase := .registering, callback := some callback }).setStage callback
        (.registering thread)).setThread thread (.register registration callback .link :: rest)
    else { s with terminated := true }
  | .link => s.goLink thread registration callback rest
  | .unlink =>
    s.afterUnlink thread registration callback rest
      ((s.stops (s.callbacks callback).state).unlink thread callback)
  | .wait epoch =>
    if (s.stops (s.callbacks callback).state).runEpoch = epoch then s
    else s.setThread thread (.register registration callback .again :: rest)
  | .again =>
    s.afterUnlink thread registration callback rest
      ((s.stops (s.callbacks callback).state).awaitRun callback)
  | .take =>
    (s.setCallback callback { s.callbacks callback with invoked := true }).setThread thread
      (.register registration callback (.exchange (!(s.callbacks callback).invoked)) :: rest)
  | .exchange hasValue =>
    let left := s.setRegistration registration { phase := .idle, callback := none }
    if (s.registrations registration).phase ≠ .resetPending ∧ hasValue = true then
      (left.begin callback thread true).setThread thread (.register registration callback .calling :: rest)
    else left.setThread thread rest
  | .calling => s

/-- An `unlink` of `reset` has come to its end or waits. -/
def afterClear (s : StopTokens) (thread registration callback : Nat) (rest : List Frame)
    (result : StopState × StopState.Unlinked) : StopTokens :=
  let s := s.setStop (s.callbacks callback).state result.1
  match result.2 with
  | .removed => (s.setStage callback .removed).setThread thread (.reset registration (.store (some callback)) :: rest)
  | .returned => s.setThread thread (.reset registration (.store (some callback)) :: rest)
  | .waits epoch => s.setThread thread (.reset registration (.wait callback epoch) :: rest)

/-- The loop of `reset`, with the phase that was read last. -/
def goTest (s : StopTokens) (thread registration : Nat) (rest : List Frame) : RegistrationPhase → StopTokens
  | .idle => s.setThread thread rest
  | .resetPending => s.setThread thread rest
  | .resetting => s.setThread thread rest
  | .registering =>
    match (s.registrations registration).phase with
    | .registering =>
      let left := s.setRegistration registration { s.registrations registration with phase := .resetPending }
      -- the callback of the registration under way is given up here
      match (s.registrations registration).callback with
      | some callback => (left.setStage callback .removed).setThread thread rest
      | none => left.setThread thread rest
    | phase => s.setThread thread (.reset registration (.test phase) :: rest)
  | .registered =>
    match (s.registrations registration).phase with
    | .registered =>
      (s.setRegistration registration { s.registrations registration with phase := .resetting }).setThread thread
        (.reset registration .clear :: rest)
    | phase => s.setThread thread (.reset registration (.test phase) :: rest)

def goReset (s : StopTokens) (thread registration : Nat) (rest : List Frame) : ResetPoint → StopTokens
  | .load => s.setThread thread (.reset registration (.test (s.registrations registration).phase) :: rest)
  | .test phase => s.goTest thread registration rest phase
  | .clear =>
    match (s.registrations registration).callback with
    | some callback =>
      s.afterClear thread registration callback rest
        ((s.stops (s.callbacks callback).state).unlink thread callback)
    | none => s.setThread thread (.reset registration (.store none) :: rest)
  | .wait callback epoch =>
    if (s.stops (s.callbacks callback).state).runEpoch = epoch then s
    else s.setThread thread (.reset registration (.again callback) :: rest)
  | .again callback =>
    s.afterClear thread registration callback rest
      ((s.stops (s.callbacks callback).state).awaitRun callback)
  | .store _ => (s.setRegistration registration { phase := .idle, callback := none }).setThread thread rest

/-- A thread goes on in its innermost call. -/
def go (s : StopTokens) (thread : Nat) : Option StopTokens :=
  match s.threads thread with
  | [] => none
  | .requestStop state point :: rest => some (s.goRequest thread state rest point)
  | .register registration callback point :: rest => some (s.goRegister thread registration callback rest point)
  | .reset registration point :: rest => some (s.goReset thread registration rest point)

/-- The callback that a thread runs returns. -/
def leave (s : StopTokens) (thread : Nat) : Option StopTokens :=
  match s.threads thread with
  | .requestStop state (.calling callback) :: rest =>
    some ((s.setStage callback .returned).setThread thread (.requestStop state (.finish callback) :: rest))
  | .register _ callback .calling :: rest => some ((s.setStage callback .returned).setThread thread rest)
  | _ => none

/-- The thread runs no call, or code that may call. -/
def mayCall (s : StopTokens) (thread : Nat) : Bool := (s.threads thread).head?.all Frame.runsCode

def step (s : StopTokens) : StopAction → Option StopTokens
  | .call thread call => if s.terminated = false ∧ s.mayCall thread = true then some (s.call thread call) else none
  | .go thread => if s.terminated = false then s.go thread else none
  | .leave thread => if s.terminated = false then s.leave thread else none
  | .retire state =>
    if s.terminated = false then some (s.setStop state { s.stops state with source := false }) else none

end StopTokens

def stopMachine : StateMachine StopTokens StopAction where
  init := fun s => s = {}
  step := StopTokens.step

end Ruvia.Core
