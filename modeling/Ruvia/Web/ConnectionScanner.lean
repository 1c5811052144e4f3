import Ruvia.Library.IntrusiveList
import Ruvia.Library.StateMachine

/-!
# `Web.ConnectionScanner` — timeouts of the connections of a worker

`connection_scanner` with its entries and periodic checks. Entries and checks are named by numbers; their intrusive
lists are the pointer lists of `Library.IntrusiveList`, the lists of the checks without their unused last end. A scan
is cut at the callbacks it makes: a tick, a drain callback, a transport that is closed or cancelled. Inside a callback,
and between scans, the connections act on the scanner in any way they like; `advance` is what the scan itself does up
to its next callback.
-/

namespace Ruvia.Web

open Library

namespace ConnectionScanner

inductive Phase where
  | idle
  | awaitingStream
  | readingInitial
  | readingPayload
  | longLived
  | writing
  deriving DecidableEq, Repr

/-- `connection_scanner_options`, in milliseconds. -/
structure Options where
  scanInterval : Int := 1000
  idleTimeout : Option Int := none
  initialReadTimeout : Option Int := none
  payloadReadTimeout : Option Int := none
  writeTimeout : Option Int := none
  initialReadCompletionTimeout : Option Int := none
  payloadReadCompletionTimeout : Option Int := none

/-- `connection_scanner::entry`; `registered` tells that it has a scanner. -/
structure Entry where
  registered : Bool := false
  lastActiveMs : Int := 0
  phaseStartedMs : Int := 0
  writeProgressMs : Int := 0
  closeDeadlineMs : Int := 0
  phase : Phase := .idle
  readingRequestHead : Bool := false
  closeRequested : Bool := false
  writeScopes : Nat := 0
  periodicChecks : IntrusiveList Nat := .empty
  periodicScanNext : Option Nat := none

/-- `periodic_check_registration`: the entry it is registered with, and whether it has a drain callback. -/
structure PeriodicCheck where
  entry : Option Nat := none
  drain : Bool := false

def Entry.writePending (entry : Entry) : Bool := entry.phase == .writing || entry.writeScopes != 0

def Entry.reusable (entry : Entry) : Bool :=
  !entry.closeRequested && ((entry.readingRequestHead && entry.phase == .idle) || entry.phase == .awaitingStream)

/-- What a `phase_scope` hands back when it ends. -/
structure SavedPhase where
  phaseStartedMs : Int
  phase : Phase
  readingRequestHead : Bool

end ConnectionScanner

open ConnectionScanner in
/-- `connection_scanner::impl_type`, with the entries and checks there are; `retired` is the loss of its owner. -/
structure ConnectionScanner where
  options : Options
  running : Bool := false
  retired : Bool := false
  timerRegistered : Bool := false
  cachedNowMs : Int := 0
  retiredActivityMs : Int := -9223372036854775808
  quietTrimmed : Bool := false
  entries : IntrusiveList Nat := .empty
  reusables : IntrusiveList Nat := .empty
  entry : Nat → Entry := fun _ => {}
  check : Nat → PeriodicCheck := fun _ => {}
  scanCurrent : Option Nat := none
  scanNext : Option Nat := none

namespace ConnectionScanner

variable (s : ConnectionScanner) (e c : Nat)

def setEntry (entry : Entry) : ConnectionScanner := { s with entry := Function.update s.entry e entry }

def setCheck (check : PeriodicCheck) : ConnectionScanner := { s with check := Function.update s.check c check }

section

variable (entry : Entry) (check : PeriodicCheck)

@[simp] theorem entry_setEntry (f : Nat) : (s.setEntry e entry).entry f = if f = e then entry else s.entry f :=
  Function.update_apply ..

@[simp] theorem check_setEntry : (s.setEntry e entry).check = s.check := rfl

@[simp] theorem entries_setEntry : (s.setEntry e entry).entries = s.entries := rfl

@[simp] theorem reusables_setEntry : (s.setEntry e entry).reusables = s.reusables := rfl

@[simp] theorem scanNext_setEntry : (s.setEntry e entry).scanNext = s.scanNext := rfl

@[simp] theorem scanCurrent_setEntry : (s.setEntry e entry).scanCurrent = s.scanCurrent := rfl

@[simp] theorem check_setCheck (d : Nat) : (s.setCheck c check).check d = if d = c then check else s.check d :=
  Function.update_apply ..

@[simp] theorem entry_setCheck : (s.setCheck c check).entry = s.entry := rfl

end

/-! ## Entries -/

/-- `touch`, at a time that is sampled. -/
def touch (now : Int) : ConnectionScanner :=
  if (s.entry e).registered then s.setEntry e { s.entry e with lastActiveMs := now } else s

def noteWriteProgress (now : Int) : ConnectionScanner :=
  if (s.entry e).registered then s.setEntry e { s.entry e with lastActiveMs := now, writeProgressMs := now } else s

def syncReusable : ConnectionScanner :=
  let listed := s.reusables.linked e
  if !(s.entry e).registered || (s.entry e).reusable == listed then s
  else if listed then { s with reusables := s.reusables.unlink e }
  else { s with reusables := s.reusables.pushBack e }

def setPhase (nextPhase : Phase) (now : Int) : ConnectionScanner :=
  let entry := s.entry e
  if entry.registered then
    let writeStarted := nextPhase == .writing && !entry.writePending
    let s := s.setEntry e
      { entry with
        lastActiveMs := now
        phaseStartedMs := if entry.phase ≠ nextPhase then now else entry.phaseStartedMs
        writeProgressMs := if writeStarted then now else entry.writeProgressMs
        phase := nextPhase
        -- A head read that completed before its cancel took effect has no deadline left.
        closeRequested := if entry.readingRequestHead then false else entry.closeRequested
        readingRequestHead := false }
    s.syncReusable e
  else s

def readRequestHead (timeoutPhase : Phase) (now : Int) : ConnectionScanner :=
  let s := s.setPhase e timeoutPhase now
  let s := s.setEntry e { s.entry e with readingRequestHead := (s.entry e).registered, closeRequested := false }
  s.syncReusable e

/-- The destructor of a `phase_scope`. -/
def endPhaseScope (saved : SavedPhase) (now : Int) : ConnectionScanner :=
  if (s.entry e).registered then
    let s := s.setEntry e
      { s.entry e with
        lastActiveMs := now
        phaseStartedMs := saved.phaseStartedMs
        phase := saved.phase
        readingRequestHead := saved.readingRequestHead }
    s.syncReusable e
  else s

/-- The constructor of a `write_scope`. -/
def beginWriteScope (now : Int) : ConnectionScanner :=
  let s := if (s.entry e).writePending then s else s.noteWriteProgress e now
  s.setEntry e { s.entry e with writeScopes := (s.entry e).writeScopes + 1 }

/-- The destructor of a `write_scope`. -/
def endWriteScope (now : Int) : ConnectionScanner :=
  let s := s.setEntry e { s.entry e with writeScopes := (s.entry e).writeScopes - 1 }
  s.touch e now

/-! ## Periodic checks -/

/-- The `next_` of a registration. -/
def checkNext : Option Nat := (s.check c).entry.bind fun e => (s.entry e).periodicChecks.next c

def removePeriodicCheck : ConnectionScanner :=
  if (s.check c).entry ≠ some e then s
  else
    let entry := s.entry e
    let s := s.setEntry e
      { entry with
        periodicChecks := entry.periodicChecks.unlink c
        periodicScanNext := entry.periodicChecks.moveCursor c entry.periodicScanNext }
    s.setCheck c {}

/-- `periodic_check_registration::reset`. -/
def resetCheck : ConnectionScanner :=
  match (s.check c).entry with
  | none => s
  | some e => s.removePeriodicCheck e c

def registerPeriodicCheck (drain : Bool) : ConnectionScanner :=
  let s := s.resetCheck c
  let s := s.setCheck c { entry := some e, drain }
  s.setEntry e { s.entry e with periodicChecks := (s.entry e).periodicChecks.pushFront c }

/-- The loop of `detach_periodic_checks`, for as many steps as there are checks. -/
def detachChecks (s : ConnectionScanner) (e : Nat) : Nat → ConnectionScanner
  | 0 => s
  | steps + 1 =>
    match (s.entry e).periodicChecks.first with
    | none => s
    | some c => (s.resetCheck c).detachChecks e steps

def detachPeriodicChecks : ConnectionScanner :=
  let s := s.setEntry e { s.entry e with periodicScanNext := none }
  s.detachChecks e (s.entry e).periodicChecks.members.length

def hasDrainCheck : Bool := (s.entry e).periodicChecks.walk.any fun c => (s.check c).drain

/-! ## The scanner -/

/-- `schedule`, on a timer queue that takes the timer. -/
def schedule : ConnectionScanner := if s.running then { s with timerRegistered := true } else s

/-- `start`, with the time it samples; a timer that cannot be scheduled leaves it stopped. -/
def start (now : Int) (scheduleThrows : Bool) : ConnectionScanner :=
  if s.running then s
  else
    let s := { s with running := true, cachedNowMs := now }
    if scheduleThrows then { s with running := false } else s.schedule

def stop : ConnectionScanner := { s with running := false, timerRegistered := false }

/-- `register_entry`; a registered entry, or a timer that cannot be scheduled, is an exception before anything. -/
def registerEntry (now : Int) (scheduleThrows : Bool) : ConnectionScanner :=
  if (s.entry e).registered then s
  else if s.running && !s.timerRegistered && scheduleThrows then s
  else
    let s := if s.running && !s.timerRegistered then s.schedule else s
    let s := s.setEntry e
      { s.entry e with
        registered := true
        lastActiveMs := now
        phaseStartedMs := now
        phase := .idle
        closeRequested := false }
    { s with entries := s.entries.pushFront e }

def unregisterEntry : ConnectionScanner :=
  if !(s.entry e).registered || !s.entries.linked e then s
  else
    let s :=
      { s with
        retiredActivityMs := max s.retiredActivityMs (s.entry e).lastActiveMs
        scanCurrent := if s.scanCurrent = some e then none else s.scanCurrent
        scanNext := s.entries.moveCursor e s.scanNext
        entries := s.entries.unlink e
        reusables := s.reusables.unlink e }
    let s := s.detachPeriodicChecks e
    s.setEntry e { s.entry e with registered := false }

/-- The destructor of an entry; what comes to stand in its place is a new one. -/
def destroyEntry : ConnectionScanner := ((s.unregisterEntry e).detachPeriodicChecks e).setEntry e {}

def recordCloseRequest (deadlineMs : Int) : ConnectionScanner :=
  let entry := s.entry e
  let s := s.setEntry e
    { entry with
      closeDeadlineMs :=
        if !entry.closeRequested || deadlineMs < entry.closeDeadlineMs then deadlineMs else entry.closeDeadlineMs
      closeRequested := true }
  s.syncReusable e

/-- `evict_oldest_reusable`, up to the transport that is closed. -/
def evictOldestReusable : ConnectionScanner :=
  match s.reusables.walk.find? fun e => !(s.entry e).writePending with
  | none => s
  | some e => s.recordCloseRequest e s.cachedNowMs

/-- The loop of `retire`, for as many steps as there are entries. -/
def unregisterEntries (s : ConnectionScanner) : Nat → ConnectionScanner
  | 0 => s
  | steps + 1 =>
    match s.entries.first with
    | none => s
    | some e => (s.unregisterEntry e).unregisterEntries steps

def retire : ConnectionScanner :=
  let s := { s.stop with retired := true }
  s.unregisterEntries s.entries.members.length

/-! ## Timeouts -/

def timeoutExpired (timeout : Option Int) (inactiveMs : Int) : Bool :=
  match timeout with
  | none => false
  | some timeout => timeout ≤ inactiveMs

def closeDeadlineAfter (now delay : Int) : Int :=
  let maximum := 9223372036854775807
  if now > maximum - delay then maximum else now + delay

def connectionCloseGrace : Int := 2000

def writeStalled (entry : Entry) (now : Int) : Bool :=
  entry.writePending && timeoutExpired s.options.writeTimeout (now - entry.writeProgressMs)

def isTimedOut (entry : Entry) (now : Int) : Bool :=
  if entry.closeRequested then entry.closeDeadlineMs ≤ now
  else if s.writeStalled entry now then true
  else
    let inactiveMs := now - entry.lastActiveMs
    let phaseElapsedMs := now - entry.phaseStartedMs
    match entry.phase with
    | .readingInitial =>
      timeoutExpired s.options.initialReadTimeout inactiveMs ||
        timeoutExpired s.options.initialReadCompletionTimeout phaseElapsedMs
    | .readingPayload =>
      timeoutExpired s.options.payloadReadTimeout inactiveMs ||
        timeoutExpired s.options.payloadReadCompletionTimeout phaseElapsedMs
    | .writing | .longLived => false
    | .awaitingStream => timeoutExpired s.options.idleTimeout phaseElapsedMs
    | .idle => timeoutExpired s.options.idleTimeout inactiveMs

def activeSince (entry : Entry) (intervalStart : Int) : Bool :=
  intervalStart ≤ entry.lastActiveMs || entry.writePending ||
    (!entry.readingRequestHead && entry.phase != .longLived && entry.phase != .awaitingStream)

/-! ## What the connections do -/

/-- What a connection, or its server, does with the scanner: between scans, and in the callbacks of one. -/
inductive Action where
  | touch (e : Nat) (now : Int)
  | noteWriteProgress (e : Nat) (now : Int)
  | setPhase (e : Nat) (nextPhase : Phase) (now : Int)
  | readRequestHead (e : Nat) (timeoutPhase : Phase) (now : Int)
  | endPhaseScope (e : Nat) (saved : SavedPhase) (now : Int)
  | beginWriteScope (e : Nat) (now : Int)
  | endWriteScope (e : Nat) (now : Int)
  | registerPeriodicCheck (e c : Nat) (drain : Bool)
  | resetCheck (c : Nat)
  | registerEntry (e : Nat) (now : Int) (scheduleThrows : Bool)
  | unregisterEntry (e : Nat)
  | destroyEntry (e : Nat)
  | evictOldestReusable
  | start (now : Int) (scheduleThrows : Bool)
  | stop
  | retire

def perform : Action → ConnectionScanner
  | .touch e now => s.touch e now
  | .noteWriteProgress e now => s.noteWriteProgress e now
  | .setPhase e nextPhase now => s.setPhase e nextPhase now
  | .readRequestHead e timeoutPhase now => s.readRequestHead e timeoutPhase now
  | .endPhaseScope e saved now => s.endPhaseScope e saved now
  | .beginWriteScope e now => s.beginWriteScope e now
  | .endWriteScope e now => s.endWriteScope e now
  | .registerPeriodicCheck e c drain => s.registerPeriodicCheck e c drain
  | .resetCheck c => s.resetCheck c
  | .registerEntry e now scheduleThrows => s.registerEntry e now scheduleThrows
  | .unregisterEntry e => s.unregisterEntry e
  | .destroyEntry e => s.destroyEntry e
  | .evictOldestReusable => s.evictOldestReusable
  | .start now scheduleThrows => s.start now scheduleThrows
  | .stop => s.stop
  | .retire => s.retire

/-- What needs the scanner itself, which is gone once it is retired. -/
def Action.needsScanner : Action → Bool
  | .registerEntry .. | .evictOldestReusable | .start .. | .stop | .retire => true
  | _ => false

end ConnectionScanner

/-! ## Scans -/

/-- How far a scan has come. -/
inductive ScanPoint where
  /-- No scan is under way. -/
  | resting
  /-- At the head of the loop over the entries. -/
  | nextEntry
  /-- At the head of the loop over the checks of the current entry. -/
  | nextCheck
  /-- In the tick of a check. -/
  | tick
  /-- At the head of the loop of `notify_drain`, with its next registration. -/
  | notifyDrain (registration : Option Nat)
  /-- In a drain callback; the successor of its registration was read before. -/
  | drain (next : Option Nat)
  /-- In the transport that is closed or cancelled. -/
  | transport
  deriving DecidableEq, Repr

/-- A scanner and its scan; `idle` and `intervalStart` are those of `scan`. -/
structure Scan where
  scanner : ConnectionScanner
  point : ScanPoint := .resting
  idle : Bool := true
  intervalStart : Int := 0

inductive ScanEvent where
  | act (action : ConnectionScanner.Action)
  | advance
  /-- The timer expires, at the time that is sampled. -/
  | begin (now : Int)

namespace Scan

open ConnectionScanner

variable (s : Scan)

/-- Where other code than the scanner's runs. -/
def inCallback : Bool :=
  match s.point with
  | .tick | .drain _ | .transport => true
  | _ => false

/-- The timer callback up to the loop of `scan`. -/
def begin (now : Int) : Scan :=
  { scanner :=
      { s.scanner with
        timerRegistered := false
        cachedNowMs := now
        scanNext := s.scanner.entries.first }
    point := .nextEntry
    idle := true
    intervalStart := s.scanner.cachedNowMs }

/-- The rest of the timer callback behind `scan`. -/
def finish : Scan :=
  let scanner := { s.scanner with scanNext := none }
  if scanner.retired then { s with scanner, point := .resting }
  else
    let scanner := { scanner with quietTrimmed := s.idle && scanner.retiredActivityMs < s.intervalStart }
    let parked := scanner.quietTrimmed && scanner.entries.first.isNone
    { s with
      scanner := if !parked && !scanner.timerRegistered then scanner.schedule else scanner
      point := .resting }

/-- The loop of `scan` takes its next entry. -/
def visit (e : Nat) : Scan :=
  let scanner :=
    { s.scanner with
      scanCurrent := some e
      scanNext := s.scanner.entries.next e }
  { s with
    scanner :=
      scanner.setEntry e
        { scanner.entry e with periodicScanNext := (scanner.entry e).periodicChecks.first }
    point := .nextCheck
    idle := s.idle && !activeSince (s.scanner.entry e) s.intervalStart }

/-- The end of a visit. -/
def leave : Scan := { s with scanner := { s.scanner with scanCurrent := none }, point := .nextEntry }

def expire (e : Nat) : Scan :=
  let entry := s.scanner.entry e
  let now := s.scanner.cachedNowMs
  if entry.closeRequested then { s with point := .transport }
  else if entry.readingRequestHead then
    { s with
      scanner := s.scanner.recordCloseRequest e (closeDeadlineAfter now s.scanner.options.scanInterval)
      point := .transport }
  else if entry.phase ≠ .writing ∧ s.scanner.writeStalled entry now = false ∧ s.scanner.hasDrainCheck e = true then
    let scanner := s.scanner.recordCloseRequest e (closeDeadlineAfter now connectionCloseGrace)
    { s with scanner, point := .notifyDrain (scanner.entry e).periodicChecks.first }
  else { s with point := .transport }

/-- The tick of a check; the cursor is moved on before. -/
def tick (e c : Nat) : Scan :=
  { s with
    scanner := s.scanner.setEntry e { s.scanner.entry e with periodicScanNext := s.scanner.checkNext c }
    point := .tick }

/-- The scanner goes on. -/
def advance : Scan :=
  match s.point with
  | .resting => s
  | .nextEntry =>
    match s.scanner.scanNext with
    | none => s.finish
    | some e => s.visit e
  | .nextCheck =>
    match s.scanner.scanCurrent with
    | none => s.leave
    | some e =>
      match (s.scanner.entry e).periodicScanNext with
      | some c => s.tick e c
      | none => if s.scanner.isTimedOut (s.scanner.entry e) s.scanner.cachedNowMs then s.expire e else s.leave
  | .tick => { s with point := .nextCheck }
  | .notifyDrain none => s.leave
  | .notifyDrain (some c) =>
    let next := s.scanner.checkNext c
    if (s.scanner.check c).drain then { s with point := .drain next } else { s with point := .notifyDrain next }
  | .drain next => { s with point := .notifyDrain next }
  | .transport => s.leave

def step : ScanEvent → Option Scan
  | .act action =>
    if (s.point = .resting ∨ s.inCallback = true) ∧ ¬ (s.scanner.retired = true ∧ action.needsScanner = true) then
      some { s with scanner := s.scanner.perform action }
    else none
  | .advance => if s.point = .resting then none else some s.advance
  | .begin now =>
    if s.point = .resting ∧ s.scanner.running = true ∧ s.scanner.timerRegistered = true ∧ s.scanner.retired = false then
      some (s.begin now)
    else none

end Scan

/-- A scanner with its options, from its construction on. -/
def scanMachine (options : ConnectionScanner.Options) : StateMachine Scan ScanEvent where
  init s := ∃ now, s = { scanner := { options, cachedNowMs := now } }
  step := Scan.step

end Ruvia.Web
