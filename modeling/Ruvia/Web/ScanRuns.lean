import Ruvia.Web.ScanCursors
import Mathlib.Data.Prod.Lex

/-!
# `Web.ScanRuns` — whole scans, under the callbacks they make

A scan goes on whatever its callbacks do: what it reads is linked, its cursors are (`Wf`), each entry that stays
linked is visited once (`visited_once`), and it comes to an end (`advance_rank`). Two things break it. `notify_drain`
reads the successor of a registration before its drain callback, so that a callback that takes this successor away
leaves it with a registration that is not linked any more; and `register_entry` does not clear a request-head flag
that is left from an earlier registration. `regular` excludes both.
-/

namespace Ruvia.Web

open Library ConnectionScanner

namespace Scan

variable {s t u : Scan} {e c : Nat}

/-- The registration that `notify_drain` has in hand while a drain callback runs. -/
def savedRegistration (s : Scan) : Option Nat :=
  match s.point with
  | .drain next => next
  | _ => none

/-- No drain callback takes away the registration behind its own, and no entry is registered that has a request-head
flag left. -/
def regular (s : Scan) : ScanEvent → Bool
  | .act action =>
    !action.registersStale s.scanner && !s.savedRegistration.any fun c => action.removesCheck s.scanner c
  | _ => true

/-- A registration is linked to its entry. -/
def checkLinked (s : Scan) (c : Nat) : Bool :=
  (s.scanner.check c).entry.any fun e => (s.scanner.entry e).periodicChecks.linked c

/-- The entry that is read when the scanner goes on. -/
def touchedEntry (s : Scan) : Option Nat :=
  match s.point with
  | .nextEntry => s.scanner.scanNext
  | .nextCheck => s.scanner.scanCurrent
  | _ => none

/-- The registration that is read when the scanner goes on. -/
def touchedCheck (s : Scan) : Option Nat :=
  match s.point with
  | .nextCheck => s.scanner.scanCurrent.bind fun e => (s.scanner.entry e).periodicScanNext
  | .notifyDrain registration => registration
  | _ => none

/-- What is touched is linked. -/
structure Safe (s : Scan) : Prop where
  entry : ∀ e, s.touchedEntry = some e → s.scanner.entries.linked e = true
  check : ∀ c, s.touchedCheck = some c → s.checkLinked c = true

/-- What a cursor is at is linked. -/
structure CursorsLinked (s : Scan) : Prop where
  scanNext : ∀ e, s.scanner.scanNext = some e → s.scanner.entries.linked e = true
  scanCurrent : ∀ e, s.scanner.scanCurrent = some e → s.scanner.entries.linked e = true
  periodicScanNext : ∀ e c, (s.scanner.entry e).periodicScanNext = some c →
    (s.scanner.entry e).periodicChecks.linked c = true
  drains : ∀ c, s.point = .drain (some c) ∨ s.point = .notifyDrain (some c) → s.checkLinked c = true

/-- The reusable list is the linked entries that are marked reusable. -/
def ReusablesExact (s : Scan) : Prop :=
  s.scanner.reusables.Sound ∧
    ∀ e, e ∈ s.scanner.reusables.members ↔ s.scanner.entries.linked e = true ∧ (s.scanner.entry e).reusable = true

/-- The entry whose visit begins. -/
def visited (s : Scan) : Option Nat :=
  match s.point with
  | .nextEntry => s.scanner.scanNext
  | _ => none

/-! ## The invariant -/

structure Wf (s : Scan) : Prop where
  sound : s.scanner.Sound
  drains : ∀ c, s.point = .drain (some c) ∨ s.point = .notifyDrain (some c) → ∃ e, (s.scanner.check c).entry = some e
  resting : s.point = .resting → s.scanner.ahead = []

/-- A state with no registration in hand. -/
theorem Wf.of_sound (hsound : s.scanner.Sound) (hdrain : ∀ c, s.point ≠ .drain c)
    (hnotify : ∀ c, s.point ≠ .notifyDrain c) (hresting : s.point = .resting → s.scanner.ahead = []) : s.Wf :=
  ⟨hsound, fun _ hc => hc.elim (fun h => absurd h (hdrain _)) fun h => absurd h (hnotify _), hresting⟩

theorem Wf.checkLinked (h : s.Wf) (hentry : (s.scanner.check c).entry = some e) : s.checkLinked c = true := by
  rw [Scan.checkLinked, hentry]
  exact (h.sound.checks e).linked_iff.mpr ((h.sound.owner e c).mp hentry)

theorem Wf.cursorsLinked (h : s.Wf) : s.CursorsLinked where
  scanNext e he := h.sound.entries.linked_iff.mpr (h.sound.scanNext e he)
  scanCurrent e he := h.sound.entries.linked_iff.mpr (h.sound.scanCurrent e he)
  periodicScanNext e c hc := (h.sound.checks e).linked_iff.mpr (h.sound.checkCursor e c hc)
  drains c hc := by
    obtain ⟨e, he⟩ := h.drains c hc
    exact h.checkLinked he

theorem Wf.safe (h : s.Wf) : s.Safe where
  entry e he := by
    rw [touchedEntry] at he
    split at he
    · exact h.cursorsLinked.scanNext e he
    · exact h.cursorsLinked.scanCurrent e he
    · cases he
  check c hc := by
    rw [touchedCheck] at hc
    split at hc
    · obtain ⟨e, -, hcursor⟩ := Option.bind_eq_some_iff.mp hc
      exact h.checkLinked ((h.sound.owner e c).mpr (h.sound.checkCursor e c hcursor))
    · rename_i hpoint
      rw [hc] at hpoint
      exact h.cursorsLinked.drains c (.inr hpoint)
    · cases hc

theorem Wf.reusablesExact (h : s.Wf) : s.ReusablesExact :=
  ⟨h.sound.reusables, fun e => (h.sound.synced e).trans (and_congr_left' h.sound.entries.linked_iff.symm)⟩

/-- The successor of a registered check is a check of the same entry. -/
theorem isCursor_checkNext (h : s.scanner.Sound) (hentry : (s.scanner.check c).entry = some e) :
    IsCursor (s.scanner.checksOf e) (s.scanner.checkNext c) := by
  rw [checkNext, hentry]
  exact (h.checks e).isCursor_next c

theorem Wf.begin (h : s.Wf) (now : Int) : (s.begin now).Wf := by
  refine .of_sound ?_ (fun _ => by simp [Scan.begin]) (fun _ => by simp [Scan.begin]) (by simp [Scan.begin])
  have hclocks := h.sound.clocks s.scanner.running s.scanner.retired false s.scanner.quietTrimmed now
    s.scanner.retiredActivityMs
  exact { hclocks with scanNext := h.sound.entries.isCursor_first }

theorem Wf.leave (h : s.Wf) : s.leave.Wf :=
  .of_sound { h.sound with scanCurrent := isCursor_none _ } (fun _ => by simp [Scan.leave])
    (fun _ => by simp [Scan.leave]) (by simp [Scan.leave])

theorem Wf.visit (h : s.Wf) (he : s.scanner.scanNext = some e) : (s.visit e).Wf := by
  refine .of_sound ?_ (fun _ => by simp [Scan.visit]) (fun _ => by simp [Scan.visit]) (by simp [Scan.visit])
  have hmoved : Sound { s.scanner with scanCurrent := some e, scanNext := s.scanner.entries.next e } :=
    { h.sound with
      scanNext := h.sound.entries.isCursor_next e
      scanCurrent := fun f hf => by
        cases hf
        exact h.sound.scanNext e he }
  exact hmoved.setCursor (h.sound.checks e).isCursor_first

theorem Wf.tick (h : s.Wf) (hc : (s.scanner.entry e).periodicScanNext = some c) : (s.tick e c).Wf := by
  refine .of_sound ?_ (fun _ => by simp [Scan.tick]) (fun _ => by simp [Scan.tick]) (by simp [Scan.tick])
  exact h.sound.setCursor (isCursor_checkNext h.sound ((h.sound.owner e c).mpr (h.sound.checkCursor e c hc)))

/-- The end of a scan leaves the lists alone. -/
theorem finish_spec (s : Scan) : s.finish.point = .resting ∧ ∃ timerRegistered quietTrimmed,
    s.finish.scanner = { s.scanner with scanNext := none, timerRegistered, quietTrimmed } := by
  rw [finish]
  split
  · exact ⟨rfl, _, _, rfl⟩
  · refine ⟨rfl, ?_⟩
    dsimp only
    split
    · rw [schedule]
      split <;> exact ⟨_, _, rfl⟩
    · exact ⟨_, _, rfl⟩

theorem ahead_finish (s : Scan) : s.finish.scanner.ahead = [] := by
  obtain ⟨-, _, _, hscanner⟩ := finish_spec s
  rw [hscanner]
  rfl

theorem Wf.finish (h : s.Wf) : s.finish.Wf := by
  obtain ⟨hpoint, timerRegistered, quietTrimmed, hscanner⟩ := finish_spec s
  refine .of_sound ?_ (fun _ => by simp [hpoint]) (fun _ => by simp [hpoint]) fun _ => ahead_finish s
  rw [hscanner]
  exact { h.sound.clocks s.scanner.running s.scanner.retired timerRegistered quietTrimmed s.scanner.cachedNowMs
    s.scanner.retiredActivityMs with scanNext := isCursor_none _ }

/-- What becomes of a timeout: the transport ends it, or a drain that starts at the first check. -/
theorem expire_cases (s : Scan) (e : Nat) : ∃ scanner, SameScan s.scanner scanner ∧ (s.scanner.Sound → scanner.Sound) ∧
    (s.expire e = { s with scanner, point := .transport } ∨
      s.expire e = { s with scanner, point := .notifyDrain (scanner.entry e).periodicChecks.first }) := by
  rw [expire]
  split
  · exact ⟨s.scanner, .refl _, id, .inl rfl⟩
  · split
    · exact ⟨_, sameScan_recordCloseRequest _ e _, fun h => h.recordCloseRequest e _, .inl rfl⟩
    · split
      · exact ⟨_, sameScan_recordCloseRequest _ e _, fun h => h.recordCloseRequest e _, .inr rfl⟩
      · exact ⟨s.scanner, .refl _, id, .inl rfl⟩

theorem Wf.expire (h : s.Wf) (e : Nat) : (s.expire e).Wf := by
  obtain ⟨scanner, -, hsound, heq | heq⟩ := expire_cases s e
  · rw [heq]
    exact .of_sound (hsound h.sound) (fun _ => by simp) (fun _ => by simp) (by simp)
  · rw [heq]
    refine ⟨hsound h.sound, fun c hc => ⟨e, ?_⟩, by simp⟩
    have hfirst : (scanner.entry e).periodicChecks.first = some c := by simpa using hc
    exact ((hsound h.sound).owner e c).mpr (((hsound h.sound).checks e).isCursor_first c hfirst)

theorem Wf.nextDrain (h : s.Wf) (hentry : (s.scanner.check c).entry = some e) {point : ScanPoint}
    (hpoint : point = .drain (s.scanner.checkNext c) ∨ point = .notifyDrain (s.scanner.checkNext c)) :
    Wf { s with point } := by
  refine ⟨h.sound, fun d hd => ⟨e, ?_⟩, fun hresting => ?_⟩
  · have hnext : s.scanner.checkNext c = some d := by
      rcases hpoint with rfl | rfl <;> simpa using hd
    exact (h.sound.owner e d).mpr (isCursor_checkNext h.sound hentry d hnext)
  · rcases hpoint with rfl | rfl <;> cases hresting

theorem Wf.advance (h : s.Wf) : s.advance.Wf := by
  rw [Scan.advance]
  split
  · exact h
  · split
    · exact h.finish
    · rename_i e he
      exact h.visit he
  · split
    · exact h.leave
    · split
      · rename_i c hc
        exact h.tick hc
      · split
        · exact h.expire _
        · exact h.leave
  · exact .of_sound h.sound (fun _ => by simp) (fun _ => by simp) (by simp)
  · exact h.leave
  · rename_i c hpoint
    obtain ⟨e, he⟩ := h.drains c (.inr hpoint)
    split
    · exact h.nextDrain he (.inl rfl)
    · exact h.nextDrain he (.inr rfl)
  · rename_i next hpoint
    refine ⟨h.sound, fun c hc => h.drains c (.inl ?_), by simp⟩
    have hnext : next = some c := by simpa using hc
    rw [hpoint, hnext]
  · exact h.leave

variable {action : Action}

theorem Wf.act (h : s.Wf) (hregular : s.regular (.act action) = true)
    (hpoint : s.point = .resting ∨ s.inCallback = true) : Wf { s with scanner := s.scanner.perform action } := by
  rw [regular, Bool.and_eq_true, Bool.not_eq_true', Bool.not_eq_true'] at hregular
  refine ⟨h.sound.perform hregular.1, fun c hc => ?_, fun hresting => ?_⟩
  · have hdrain : s.point = .drain (some c) := by
      refine hc.resolve_right fun hnotify => ?_
      rw [inCallback, show s.point = .notifyDrain (some c) from hnotify] at hpoint
      simp at hpoint
    obtain ⟨e, he⟩ := h.drains c (.inl hdrain)
    have hkept := hregular.2
    rw [savedRegistration, hdrain] at hkept
    exact ⟨e, (keeps_perform h.sound hkept e he).1⟩
  · have hsublist := (evolves_perform h.sound action).ahead
    rw [h.resting hresting] at hsublist
    exact List.sublist_nil.mp hsublist

/-- What a step can do. -/
theorem step_cases {event : ScanEvent} (h : s.step event = some t) :
    (∃ action, event = .act action ∧ (s.point = .resting ∨ s.inCallback = true) ∧
      t = { s with scanner := s.scanner.perform action }) ∨
    (event = .advance ∧ s.point ≠ .resting ∧ t = s.advance) ∨
    (∃ now, event = .begin now ∧ s.point = .resting ∧ t = s.begin now) := by
  cases event with
  | act action =>
    rw [step] at h
    split at h
    · rename_i henabled
      exact .inl ⟨action, rfl, henabled.1, (Option.some.inj h).symm⟩
    · cases h
  | advance =>
    rw [step] at h
    split at h
    · cases h
    · rename_i hpoint
      exact .inr (.inl ⟨rfl, hpoint, (Option.some.inj h).symm⟩)
  | begin now =>
    rw [step] at h
    split at h
    · rename_i henabled
      exact .inr (.inr ⟨now, rfl, henabled.1, (Option.some.inj h).symm⟩)
    · cases h

theorem Wf.step (h : s.Wf) {event : ScanEvent} (hregular : s.regular event = true) (hstep : s.step event = some t) :
    t.Wf := by
  obtain ⟨action, rfl, hpoint, rfl⟩ | ⟨rfl, -, rfl⟩ | ⟨now, rfl, -, rfl⟩ := step_cases hstep
  · exact h.act hregular hpoint
  · exact h.advance
  · exact h.begin now

theorem wf_init (options : Options) (now : Int) : Wf { scanner := { options, cachedNowMs := now } } where
  sound := by
    refine ⟨⟨⟨fun _ => IntrusiveList.sound_empty, fun e c => ?_, fun _ => isCursor_none _⟩, IntrusiveList.sound_empty,
      IntrusiveList.sound_empty, fun e => ?_, fun e he => he, isCursor_none _, isCursor_none _⟩, fun e => ?_⟩
    · exact iff_of_false (by simp) List.not_mem_nil
    · exact iff_of_false Bool.false_ne_true List.not_mem_nil
    · exact iff_of_false List.not_mem_nil fun h => List.not_mem_nil h.1
  drains c hc := by simp at hc
  resting _ := rfl

variable {options : Options}

theorem wf_of_reachable (h : (scanMachine options).ReachableVia (fun s event => s.regular event = true) s) :
    s.Wf := by
  refine StateMachine.ReachableVia.invariant (P := Wf) ?_ (fun s event t hs hregular hstep => hs.step hregular hstep) h
  rintro s ⟨now, rfl⟩
  exact wf_init options now

/-! ## Visits -/

theorem visited_of_callback (h : s.inCallback = true) : s.visited = none := by
  rw [inCallback] at h
  rw [visited]
  split
  · rename_i hpoint
    rw [hpoint] at h
    cases h
  · rfl

theorem ahead_expire (s : Scan) (e : Nat) : (s.expire e).scanner.ahead = s.scanner.ahead := by
  obtain ⟨scanner, hsame, -, heq | heq⟩ := expire_cases s e
  all_goals
    rw [heq]
    exact hsame.ahead

/-- **The scanner goes on by visiting the next entry, or leaves what is before it.** -/
theorem advance_ahead (h : s.Wf) :
    (∃ e, s.visited = some e ∧ s.scanner.ahead = e :: s.advance.scanner.ahead) ∨
      (s.visited = none ∧ s.advance.scanner.ahead = s.scanner.ahead) := by
  rw [visited, advance]
  cases hpoint : s.point with
  | nextEntry =>
    cases hnext : s.scanner.scanNext with
    | none =>
      right
      refine ⟨rfl, (ahead_finish s).trans ?_⟩
      rw [ahead, hnext]
      rfl
    | some e =>
      left
      refine ⟨e, rfl, ?_⟩
      rw [ahead, hnext]
      exact h.sound.entries.fromCursor_next (h.sound.scanNext e hnext)
  | resting | tick | drain next | transport => exact .inr ⟨rfl, rfl⟩
  | nextCheck =>
    refine .inr ⟨rfl, ?_⟩
    cases s.scanner.scanCurrent with
    | none => rfl
    | some e =>
      dsimp only
      split
      · rfl
      · split
        · exact ahead_expire s e
        · rfl
  | notifyDrain registration =>
    refine .inr ⟨rfl, ?_⟩
    cases registration with
    | none => rfl
    | some c =>
      dsimp only
      split <;> rfl

/-- The elements of a list without repetition that remain are counted as before. -/
theorem count_of_sublist {l l' : List Nat} (hnodup : l.Nodup) (hsublist : l'.Sublist l) (hstays : e ∈ l → e ∈ l') :
    l'.count e = l.count e := by
  by_cases hmem : e ∈ l
  · rw [List.count_eq_one_of_mem hnodup hmem, List.count_eq_one_of_mem (hnodup.sublist hsublist) (hstays hmem)]
  · rw [List.count_eq_zero_of_not_mem hmem, List.count_eq_zero_of_not_mem fun h => hmem (hsublist.subset h)]

/-- **A step visits an entry that stays linked, or leaves it before the scan.** -/
theorem count_step (h : s.Wf) {event : ScanEvent} (hstep : s.step event = some t)
    (hpoint : s.point ≠ .resting) (ht : e ∈ t.scanner.entries.members) :
    s.visited.toList.count e + t.scanner.ahead.count e = s.scanner.ahead.count e := by
  obtain ⟨action, rfl, hopen, rfl⟩ | ⟨rfl, -, rfl⟩ | ⟨now, rfl, hresting, rfl⟩ := step_cases hstep
  · rw [visited_of_callback (hopen.resolve_left hpoint)]
    have hnodup : s.scanner.ahead.Nodup := h.sound.entries.nodup.sublist (fromCursor_sublist _ _)
    exact (Nat.zero_add _).trans (count_of_sublist hnodup (evolves_perform h.sound action).ahead fun hahead =>
      stays_perform h.sound hahead ht)
  · obtain ⟨f, hvisited, hahead⟩ | ⟨hvisited, hahead⟩ := advance_ahead h
    · rw [hvisited, hahead, Option.toList_some, List.count_cons, List.count_cons, List.count_nil]
      omega
    · rw [hvisited, hahead]
      exact Nat.zero_add _
  · exact absurd hresting hpoint

variable {passed : List Scan}

/-- What is visited on a run, and what is left before it, for an entry that stays linked. -/
theorem count_passes (h : s.Wf)
    (hpasses : (scanMachine options).PassesVia (fun s event => s.regular event = true) s passed t)
    (hpoint : ∀ v ∈ passed, v.point ≠ .resting) (hlinked : ∀ v ∈ passed, e ∈ v.scanner.entries.members)
    (ht : e ∈ t.scanner.entries.members) :
    (passed.filterMap visited).count e + t.scanner.ahead.count e = s.scanner.ahead.count e := by
  induction hpasses with
  | done => exact Nat.zero_add _
  | @step s t u event passed hok hstep hrest ih =>
    have hnext := h.step hok hstep
    have htail := ih hnext (fun v hv => hpoint v (List.mem_cons_of_mem s hv))
      (fun v hv => hlinked v (List.mem_cons_of_mem s hv)) ht
    have hmem : e ∈ t.scanner.entries.members := by
      cases hrest with
      | done => exact ht
      | step => exact hlinked t (by simp)
    have hcount := count_step h hstep (hpoint s List.mem_cons_self) hmem
    rw [List.filterMap_cons]
    cases hvisited : s.visited with
    | none =>
      rw [hvisited, Option.toList_none, List.count_nil] at hcount
      exact htail.trans ((Nat.zero_add _).symm.trans hcount)
    | some f =>
      rw [hvisited, Option.toList_some, List.count_singleton] at hcount
      rw [List.count_cons]
      omega

theorem Wf.passes (h : s.Wf)
    (hpasses : (scanMachine options).PassesVia (fun s event => s.regular event = true) s passed t) :
    (∀ v ∈ passed, v.Wf) ∧ t.Wf := by
  induction hpasses with
  | done => exact ⟨fun v hv => (by cases hv), h⟩
  | step hok hstep _ ih =>
    obtain ⟨hpassed, hlast⟩ := ih (h.step hok hstep)
    exact ⟨List.forall_mem_cons.mpr ⟨h, hpassed⟩, hlast⟩

/-- **An entry that stays linked throughout a scan is visited once.** -/
theorem visited_once {now : Int} (h : s.Wf) (hstep : s.step (.begin now) = some t)
    (hpasses : (scanMachine options).PassesVia (fun s event => s.regular event = true) t passed u)
    (hpoint : ∀ v ∈ passed, v.point ≠ .resting) (hend : u.point = .resting)
    (hlinked : ∀ v ∈ passed, e ∈ v.scanner.entries.members) (hu : e ∈ u.scanner.entries.members) :
    (passed.filterMap visited).count e = 1 := by
  have ht := h.step rfl hstep
  have hcount := count_passes ht hpasses hpoint hlinked hu
  have hmem : e ∈ t.scanner.entries.members := by
    cases hpasses with
    | done => exact hu
    | step => exact hlinked t (by simp)
  obtain ⟨_, hevent, -⟩ | ⟨hevent, -⟩ | ⟨now, -, -, rfl⟩ := step_cases hstep
  · cases hevent
  · cases hevent
  · have hahead : (s.begin now).scanner.ahead = (s.begin now).scanner.entries.members :=
      h.sound.entries.fromCursor_first
    rw [(ht.passes hpasses).2.resting hend, hahead, List.count_eq_one_of_mem ht.sound.entries.nodup hmem] at hcount
    exact hcount

/-! ## Termination -/

/-- What a drain has still to walk from a registration on. -/
def drainWalk (scanner : ConnectionScanner) (registration : Option Nat) : List Nat :=
  match registration.bind fun c => (scanner.check c).entry with
  | none => []
  | some e => fromCursor (scanner.checksOf e) registration

/-- The checks of the current entry that the scan has still to tick. -/
def ticksLeft (scanner : ConnectionScanner) : List Nat :=
  match scanner.scanCurrent with
  | none => []
  | some e => scanner.behind e

/-- The stage of a visit, and the steps it has at most. -/
def stage (scanner : ConnectionScanner) : ScanPoint → Nat ×ₗ Nat
  | .resting | .nextEntry => toLex (0, 0)
  | .transport => toLex (0, 1)
  | .notifyDrain registration => toLex (1, 2 * (drainWalk scanner registration).length)
  | .drain next => toLex (1, 2 * (drainWalk scanner next).length + 1)
  | .nextCheck => toLex (2, 2 * (ticksLeft scanner).length)
  | .tick => toLex (2, 2 * (ticksLeft scanner).length + 1)

/-- What a scan has still before it: the entries, and the steps of the visit under way. -/
def rank (s : Scan) : Nat ×ₗ (Nat ×ₗ Nat) := toLex (s.scanner.ahead.length, stage s.scanner s.point)

theorem ticksLeft_evolves {scanner scanner' : ConnectionScanner} (h : Evolves scanner scanner') :
    (ticksLeft scanner').length ≤ (ticksLeft scanner).length := by
  rw [ticksLeft]
  split
  · exact Nat.zero_le _
  · rename_i e hcurrent
    rw [ticksLeft, h.current e hcurrent]
    exact (h.behind e).length_le

theorem drainWalk_keeps {scanner scanner' : ConnectionScanner} (h : Keeps c scanner scanner')
    (hentry : (scanner.check c).entry = some e) :
    (drainWalk scanner' (some c)).length ≤ (drainWalk scanner (some c)).length := by
  obtain ⟨hentry', hsublist⟩ := h e hentry
  rw [drainWalk, drainWalk, Option.bind_some, Option.bind_some, hentry, hentry']
  exact hsublist.length_le

theorem Wf.drain_kept (h : s.Wf) (hregular : s.regular (.act action) = true) (hpoint : s.point = .drain (some c)) :
    Keeps c s.scanner (s.scanner.perform action) := by
  rw [regular, Bool.and_eq_true, Bool.not_eq_true', Bool.not_eq_true', savedRegistration, hpoint] at hregular
  exact keeps_perform h.sound hregular.2

/-- An action leaves no more before the scan. -/
theorem rank_act (h : s.Wf) (hregular : s.regular (.act action) = true) (hcallback : s.inCallback = true) :
    rank { s with scanner := s.scanner.perform action } ≤ s.rank := by
  have hevolves := evolves_perform h.sound action
  have hticks := ticksLeft_evolves hevolves
  refine Prod.Lex.toLex_le_toLex.mpr (hevolves.ahead.length_le.lt_or_eq.imp id fun heq => ⟨heq, ?_⟩)
  rw [inCallback] at hcallback
  show stage (s.scanner.perform action) s.point ≤ stage s.scanner s.point
  cases hpoint : s.point with
  | tick => exact Prod.Lex.toLex_le_toLex.mpr (.inr ⟨rfl, by dsimp only; omega⟩)
  | drain next =>
    refine Prod.Lex.toLex_le_toLex.mpr (.inr ⟨rfl, ?_⟩)
    cases next with
    | none => exact le_refl _
    | some c =>
      obtain ⟨e, he⟩ := h.drains c (.inl hpoint)
      have hwalk := drainWalk_keeps (h.drain_kept hregular hpoint) he
      omega
  | transport => exact le_refl _
  | resting | nextEntry | nextCheck | notifyDrain => simp [hpoint] at hcallback

/-- A later stage of the same visit. -/
theorem rank_lt_of_stage (hahead : t.scanner.ahead = s.scanner.ahead)
    (hstage : stage t.scanner t.point < stage s.scanner s.point) : t.rank < s.rank :=
  Prod.Lex.toLex_lt_toLex.mpr (.inr ⟨by rw [hahead], hstage⟩)

theorem drainWalk_next (h : s.Wf) (hpoint : s.point = .notifyDrain (some c)) :
    (drainWalk s.scanner (s.scanner.checkNext c)).length < (drainWalk s.scanner (some c)).length := by
  obtain ⟨e, he⟩ := h.drains c (.inr hpoint)
  have hwalk := (h.sound.checks e).fromCursor_next ((h.sound.owner e c).mp he)
  have hcursor := isCursor_checkNext h.sound he
  have hthis : drainWalk s.scanner (some c) = fromCursor (s.scanner.checksOf e) (some c) := by
    rw [drainWalk, Option.bind_some, he]
  have hnext : drainWalk s.scanner (s.scanner.checkNext c) =
      fromCursor (s.scanner.checksOf e) ((s.scanner.entry e).periodicChecks.next c) := by
    have heq : s.scanner.checkNext c = (s.scanner.entry e).periodicChecks.next c := by rw [checkNext, he]; rfl
    rw [drainWalk, ← heq]
    cases hd : s.scanner.checkNext c with
    | none => rfl
    | some d => rw [Option.bind_some, (h.sound.owner e d).mpr (hcursor d hd)]
  rw [hthis, hnext, checksOf, hwalk]
  exact Nat.lt_succ_self _

theorem ticksLeft_tick (h : s.Wf) (hcurrent : s.scanner.scanCurrent = some e)
    (hc : (s.scanner.entry e).periodicScanNext = some c) :
    (ticksLeft (s.tick e c).scanner).length < (ticksLeft s.scanner).length := by
  have hmem := h.sound.checkCursor e c hc
  have hnext : s.scanner.checkNext c = (s.scanner.entry e).periodicChecks.next c := by
    rw [checkNext, (h.sound.owner e c).mpr hmem]
    rfl
  have hbefore : ticksLeft s.scanner = fromCursor (s.scanner.entry e).periodicChecks.members (some c) := by
    rw [ticksLeft, hcurrent]
    dsimp only
    rw [behind, checksOf, hc]
  have hafter : ticksLeft (s.tick e c).scanner =
      fromCursor (s.scanner.entry e).periodicChecks.members (s.scanner.checkNext c) := by
    rw [ticksLeft, tick, scanCurrent_setEntry, hcurrent]
    dsimp only
    rw [behind, checksOf, entry_setEntry, if_pos rfl]
  rw [hbefore, hafter, hnext, (h.sound.checks e).fromCursor_next hmem]
  exact Nat.lt_succ_self _

theorem rank_leave (h : toLex ((0, 0) : Nat × Nat) < stage s.scanner s.point) : s.leave.rank < s.rank :=
  rank_lt_of_stage rfl h

/-- **The scanner comes nearer to the end of its scan whenever it goes on.** -/
theorem rank_advance (h : s.Wf) (hpoint : s.point ≠ .resting) (hscan : s.advance.point ≠ .resting) :
    s.advance.rank < s.rank := by
  have hvisit : ∀ e, s.scanner.ahead = e :: s.advance.scanner.ahead → s.advance.rank < s.rank := fun e hahead =>
    Prod.Lex.toLex_lt_toLex.mpr (.inl (by rw [hahead]; exact Nat.lt_succ_self _))
  obtain ⟨e, -, hahead⟩ | ⟨hvisited, -⟩ := advance_ahead h
  · exact hvisit e hahead
  · rw [advance] at hscan ⊢
    cases hp : s.point with
    | resting => exact absurd hp hpoint
    | nextEntry =>
      rw [visited, hp] at hvisited
      rw [hp, show s.scanner.scanNext = none from hvisited] at hscan
      exact absurd (finish_spec s).1 hscan
    | nextCheck =>
      have hlow : ∀ k, toLex ((0, k) : Nat × Nat) < stage s.scanner s.point := fun k => by
        rw [hp]
        exact Prod.Lex.toLex_lt_toLex.mpr (.inl Nat.zero_lt_two)
      cases hcurrent : s.scanner.scanCurrent with
      | none => exact rank_leave (hlow 0)
      | some e =>
        dsimp only
        split
        · rename_i c hc
          refine rank_lt_of_stage rfl ?_
          have hticks := ticksLeft_tick h hcurrent hc
          rw [hp]
          refine Prod.Lex.toLex_lt_toLex.mpr (.inr ⟨rfl, ?_⟩)
          dsimp only
          omega
        · split
          · obtain ⟨scanner, hsame, -, heq | heq⟩ := expire_cases s e
            · rw [heq]
              exact rank_lt_of_stage hsame.ahead (hlow 1)
            · rw [heq]
              refine rank_lt_of_stage hsame.ahead ?_
              rw [hp]
              exact Prod.Lex.toLex_lt_toLex.mpr (.inl Nat.one_lt_two)
          · exact rank_leave (hlow 0)
    | tick | drain next =>
      refine rank_lt_of_stage rfl ?_
      rw [hp]
      exact Prod.Lex.toLex_lt_toLex.mpr (.inr ⟨rfl, Nat.lt_succ_self _⟩)
    | notifyDrain registration =>
      cases registration with
      | none =>
        refine rank_leave ?_
        rw [hp]
        exact Prod.Lex.toLex_lt_toLex.mpr (.inl Nat.zero_lt_one)
      | some c =>
        have hwalk := drainWalk_next h hp
        dsimp only
        split
        all_goals
          refine rank_lt_of_stage rfl ?_
          rw [hp]
          refine Prod.Lex.toLex_lt_toLex.mpr (.inr ⟨rfl, ?_⟩)
          dsimp only
          omega
    | transport =>
      refine rank_leave ?_
      rw [hp]
      exact Prod.Lex.toLex_lt_toLex.mpr (.inr ⟨rfl, Nat.zero_lt_one⟩)

/-- **A scan ends**, when each of its callbacks does. -/
theorem scan_ends {run : Nat → Scan} (h : (run 0).Wf)
    (hrun : ∀ n, ∃ event, (run n).regular event = true ∧ (scanMachine options).step (run n) event = some (run (n + 1)))
    (hreturns : ∀ n, ∃ m ≥ n, (run m).inCallback = false) : ∃ n, (run n).point = .resting := by
  have hwf : ∀ n, (run n).Wf := by
    intro n
    induction n with
    | zero => exact h
    | succ n ih =>
      obtain ⟨event, hregular, hstep⟩ := hrun n
      exact ih.step hregular hstep
  by_contra hnever
  have hpoint : ∀ n, (run n).point ≠ .resting := fun n hn => hnever ⟨n, hn⟩
  -- A step is an action in a callback, or the scanner going on.
  have hstep : ∀ n, (run (n + 1)).rank ≤ (run n).rank ∧
      ((run n).inCallback = false → (run (n + 1)).rank < (run n).rank) := by
    intro n
    obtain ⟨event, hregular, hstep⟩ := hrun n
    obtain ⟨action, rfl, hopen, heq⟩ | ⟨rfl, -, heq⟩ | ⟨_, -, hresting, -⟩ := step_cases hstep
    · have hcallback := hopen.resolve_left (hpoint n)
      rw [heq]
      exact ⟨rank_act (hwf n) hregular hcallback, fun hout => by rw [hout] at hcallback; cases hcallback⟩
    · have hlt : (run (n + 1)).rank < (run n).rank := by
        have hscan := hpoint (n + 1)
        rw [heq] at hscan ⊢
        exact rank_advance (hwf n) (hpoint n) hscan
      exact ⟨hlt.le, fun _ => hlt⟩
    · exact absurd hresting (hpoint n)
  obtain ⟨n, hn⟩ := StateMachine.exists_of_falling run rank (P := fun s => s.point = .resting)
    (fun n _ => (hstep n).1) fun n => by
      obtain ⟨m, hm, hreturn⟩ := hreturns n
      exact ⟨m, hm, .inr ((hstep m).2 hreturn)⟩
  exact hpoint n hn

end Scan

open Scan

/-- **Scans under reentrancy**: in every run whose drain callbacks leave the registration behind their own, and that
registers no entry with a request-head flag that is left, what the scanner touches is linked, every cursor is at a
linked element or at the end, and the reusable list is exact; an entry that stays linked throughout a scan is visited
exactly once; and a scan whose callbacks all return comes to its end. -/
theorem scan_reentrant (options : ConnectionScanner.Options) :
    (∀ s, (scanMachine options).ReachableVia (fun s event => s.regular event = true) s →
      s.Safe ∧ s.CursorsLinked ∧ s.ReusablesExact) ∧
    (∀ s now first passed last, (scanMachine options).ReachableVia (fun s event => s.regular event = true) s →
      (scanMachine options).step s (.begin now) = some first →
      (scanMachine options).PassesVia (fun s event => s.regular event = true) first passed last →
      (∀ v ∈ passed, v.point ≠ .resting) → last.point = .resting →
      ∀ e, (∀ v ∈ passed, v.scanner.entries.linked e = true) → last.scanner.entries.linked e = true →
        (passed.filterMap visited).count e = 1) ∧
    (∀ run : Nat → Scan, (scanMachine options).ReachableVia (fun s event => s.regular event = true) (run 0) →
      (∀ n, ∃ event, (run n).regular event = true ∧ (scanMachine options).step (run n) event = some (run (n + 1))) →
      (∀ n, ∃ m ≥ n, (run m).inCallback = false) → ∃ n, (run n).point = .resting) := by
  refine ⟨fun s hs => ?_, fun s now first passed last hs hbegin hpasses hpoint hend e hlinked hlast => ?_,
    fun run hs hrun hreturns => scan_ends (wf_of_reachable hs) hrun hreturns⟩
  · have hwf := wf_of_reachable hs
    exact ⟨hwf.safe, hwf.cursorsLinked, hwf.reusablesExact⟩
  · have hwf := wf_of_reachable hs
    have hfirst : first.Wf := hwf.step (show s.regular (.begin now) = true from rfl) hbegin
    obtain ⟨hpassed, hwflast⟩ := hfirst.passes hpasses
    exact visited_once hwf hbegin hpasses hpoint hend
      (fun v hv => (hpassed v hv).sound.entries.linked_iff.mp (hlinked v hv))
      (hwflast.sound.entries.linked_iff.mp hlast)

/-- A drain callback that unregisters its entry, which has a check behind the one that is drained. -/
def drainRun : List ScanEvent :=
  [.act (.start 0 false), .act (.registerEntry 0 0 false), .act (.registerPeriodicCheck 0 1 false),
    .act (.registerPeriodicCheck 0 2 true), .begin 0, .advance, .advance, .advance, .advance, .advance, .advance,
    .advance, .act (.unregisterEntry 0), .advance]

/-- A drain that has one registration in hand still. -/
theorem scan_reentrant_drain : ∃ s, (scanMachine { idleTimeout := some 0 }).follow
      (fun s event => s.regular event = true) { scanner := { options := { idleTimeout := some 0 } } }
      (drainRun.take 12) = some s ∧ s.Safe ∧ s.CursorsLinked ∧ s.ReusablesExact := by
  obtain ⟨s, hs⟩ := Option.isSome_iff_exists.mp (show ((scanMachine { idleTimeout := some 0 }).follow
    (fun s event => s.regular event = true) { scanner := { options := { idleTimeout := some 0 } } }
    (drainRun.take 12)).isSome = true by decide +kernel)
  have hstart : (scanMachine { idleTimeout := some 0 }).init { scanner := { options := { idleTimeout := some 0 } } } :=
    ⟨0, rfl⟩
  exact ⟨s, hs, (scan_reentrant _).1 s ((StateMachine.ReachableVia.start hstart).follow hs)⟩

/-- An entry that is unregistered in front of a request head, and registered again. -/
def staleRun : List ScanEvent :=
  [.act (.registerEntry 0 0 false), .act (.readRequestHead 0 .idle 0), .act (.unregisterEntry 0),
    .act (.registerEntry 0 0 false)]

/-- Without the condition the scanner reads a registration that is not linked, and the reusable list misses an entry
that is reusable. -/
theorem scan_reentrant_fails :
    ¬ (∀ options s, (scanMachine options).Reachable s → s.Safe) ∧
      ¬ (∀ options s, (scanMachine options).Reachable s → s.ReusablesExact) := by
  have hreachable : ∀ options events, (scanMachine options).Reachable
      ((scanMachine options).run { scanner := { options } } events) := by
    intro options events
    have hstart : (scanMachine options).init { scanner := { options } } := ⟨0, rfl⟩
    exact (StateMachine.Reachable.start hstart).run events
  constructor
  · intro hsafe
    have hlinked := (hsafe _ _ (hreachable { idleTimeout := some 0 } drainRun)).check 1 (by decide +kernel)
    exact absurd hlinked (by decide +kernel)
  · intro hexact
    have hlisted := ((hexact {} _ (hreachable {} staleRun)).2 0).mpr ⟨by decide +kernel, by decide +kernel⟩
    exact absurd hlisted (by decide +kernel)

end Ruvia.Web
