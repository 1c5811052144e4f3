import Ruvia.Web.ScannerInvariant

/-!
# `Web.ScanCursors` — what an action leaves of the scan that is under way

An action takes from what a scan has still to do, and adds nothing to it (`Evolves`); an entry that stays linked stays
before the scan (`stays_perform`); and a drain keeps its next registration, unless the action removes that one
(`Keeps`).
-/

namespace Ruvia.Web

open Library

namespace ConnectionScanner

variable {s s' s'' : ConnectionScanner} {e f c d : Nat}

/-- The entries that a scan has still to visit. -/
def ahead (s : ConnectionScanner) : List Nat := fromCursor s.entries.members s.scanNext

structure Evolves (s s' : ConnectionScanner) : Prop where
  ahead : s'.ahead.Sublist s.ahead
  current : ∀ e, s'.scanCurrent = some e → s.scanCurrent = some e
  behind : ∀ e, (s'.behind e).Sublist (s.behind e)

theorem Evolves.refl (s : ConnectionScanner) : Evolves s s := ⟨.refl _, fun _ => id, fun _ => .refl _⟩

theorem Evolves.trans (h : Evolves s s') (h' : Evolves s' s'') : Evolves s s'' where
  ahead := h'.ahead.trans h.ahead
  current e he := h.current e (h'.current e he)
  behind e := (h'.behind e).trans (h.behind e)

/-- A registered check stays registered, in front of no more checks than before. -/
def Keeps (c : Nat) (s s' : ConnectionScanner) : Prop :=
  ∀ e, (s.check c).entry = some e → (s'.check c).entry = some e ∧
    (fromCursor (s'.checksOf e) (some c)).Sublist (fromCursor (s.checksOf e) (some c))

theorem Keeps.refl (c : Nat) (s : ConnectionScanner) : Keeps c s s := fun _ h => ⟨h, .refl _⟩

theorem Keeps.trans (h : Keeps c s s') (h' : Keeps c s' s'') : Keeps c s s'' := fun e he =>
  have hfirst := h e he
  have hsecond := h' e hfirst.1
  ⟨hsecond.1, hsecond.2.trans hfirst.2⟩

/-! ## Changes outside the lists -/

/-- The lists of entries and checks, and the cursors, are as they were. -/
structure SameScan (s s' : ConnectionScanner) : Prop where
  entries : s'.entries = s.entries
  scanNext : s'.scanNext = s.scanNext
  scanCurrent : s'.scanCurrent = s.scanCurrent
  check : s'.check = s.check
  lists : ∀ e, (s'.entry e).periodicChecks = (s.entry e).periodicChecks ∧
    (s'.entry e).periodicScanNext = (s.entry e).periodicScanNext

namespace SameScan

theorem refl (s : ConnectionScanner) : SameScan s s := ⟨rfl, rfl, rfl, rfl, fun _ => ⟨rfl, rfl⟩⟩

theorem trans (h : SameScan s s') (h' : SameScan s' s'') : SameScan s s'' where
  entries := h'.entries.trans h.entries
  scanNext := h'.scanNext.trans h.scanNext
  scanCurrent := h'.scanCurrent.trans h.scanCurrent
  check := h'.check.trans h.check
  lists e := ⟨(h'.lists e).1.trans (h.lists e).1, (h'.lists e).2.trans (h.lists e).2⟩

theorem setEntry (s : ConnectionScanner) {entry : Entry} (hchecks : entry.periodicChecks = (s.entry e).periodicChecks)
    (hcursor : entry.periodicScanNext = (s.entry e).periodicScanNext) : SameScan s (s.setEntry e entry) where
  entries := rfl
  scanNext := rfl
  scanCurrent := rfl
  check := rfl
  lists f := by
    rw [entry_setEntry]
    split
    · rename_i hf
      rw [hf]
      exact ⟨hchecks, hcursor⟩
    · exact ⟨rfl, rfl⟩

theorem syncReusable (s : ConnectionScanner) (e : Nat) : SameScan s (s.syncReusable e) := by
  rw [ConnectionScanner.syncReusable]
  split
  · exact refl s
  · split <;> exact ⟨rfl, rfl, rfl, rfl, fun _ => ⟨rfl, rfl⟩⟩

theorem update (s : ConnectionScanner) {entry : Entry} (hchecks : entry.periodicChecks = (s.entry e).periodicChecks)
    (hcursor : entry.periodicScanNext = (s.entry e).periodicScanNext) :
    SameScan s ((s.setEntry e entry).syncReusable e) :=
  (setEntry s hchecks hcursor).trans (syncReusable _ e)

theorem schedule (s : ConnectionScanner) : SameScan s s.schedule := by
  rw [ConnectionScanner.schedule]
  split <;> exact ⟨rfl, rfl, rfl, rfl, fun _ => ⟨rfl, rfl⟩⟩

variable (h : SameScan s s')

section

variable (h : SameScan s s')
include h

theorem checksOf (e : Nat) : s'.checksOf e = s.checksOf e := by
  rw [ConnectionScanner.checksOf, (h.lists e).1]
  rfl

theorem ahead : s'.ahead = s.ahead := by
  rw [ConnectionScanner.ahead, h.entries, h.scanNext]
  rfl

theorem evolves : Evolves s s' where
  ahead := h.ahead ▸ .refl _
  current e he := h.scanCurrent ▸ he
  behind e := by
    rw [behind, h.checksOf, (h.lists e).2]
    exact .refl _

theorem keeps (c : Nat) : Keeps c s s' := fun e he => by
  rw [h.check, h.checksOf]
  exact ⟨he, .refl _⟩

end

end SameScan

/-- What only a connection's clocks, phase and writes are told. -/
def Action.localToEntry : Action → Bool
  | .touch .. | .noteWriteProgress .. | .setPhase .. | .readRequestHead .. | .endPhaseScope .. | .beginWriteScope ..
  | .endWriteScope .. | .evictOldestReusable | .start .. | .stop => true
  | _ => false

theorem sameScan_touch (s : ConnectionScanner) (e : Nat) (now : Int) : SameScan s (s.touch e now) := by
  rw [touch]
  split
  · exact .setEntry s rfl rfl
  · exact .refl s

theorem sameScan_noteWriteProgress (s : ConnectionScanner) (e : Nat) (now : Int) :
    SameScan s (s.noteWriteProgress e now) := by
  rw [noteWriteProgress]
  split
  · exact .setEntry s rfl rfl
  · exact .refl s

theorem sameScan_setPhase (s : ConnectionScanner) (e : Nat) (nextPhase : Phase) (now : Int) :
    SameScan s (s.setPhase e nextPhase now) := by
  rw [setPhase]
  split
  · exact .update s rfl rfl
  · exact .refl s

theorem sameScan_recordCloseRequest (s : ConnectionScanner) (e : Nat) (deadlineMs : Int) :
    SameScan s (s.recordCloseRequest e deadlineMs) := .update s rfl rfl

variable {action : Action}

theorem sameScan_perform (s : ConnectionScanner) (hlocal : action.localToEntry = true) :
    SameScan s (s.perform action) := by
  cases action with
  | touch e now => exact sameScan_touch s e now
  | noteWriteProgress e now => exact sameScan_noteWriteProgress s e now
  | setPhase e nextPhase now => exact sameScan_setPhase s e nextPhase now
  | readRequestHead e timeoutPhase now => exact (sameScan_setPhase s e timeoutPhase now).trans (.update _ rfl rfl)
  | endPhaseScope e saved now =>
    rw [perform, endPhaseScope]
    split
    · exact .update s rfl rfl
    · exact .refl s
  | beginWriteScope e now =>
    refine SameScan.trans ?_ (.setEntry _ rfl rfl)
    split
    · exact .refl s
    · exact sameScan_noteWriteProgress s e now
  | endWriteScope e now =>
    refine SameScan.trans ?_ (sameScan_touch _ e now)
    exact .setEntry s rfl rfl
  | evictOldestReusable =>
    rw [perform, evictOldestReusable]
    split
    · exact .refl s
    · exact sameScan_recordCloseRequest s _ _
  | start now scheduleThrows =>
    rw [perform, start]
    split
    · exact .refl s
    · split
      · exact ⟨rfl, rfl, rfl, rfl, fun _ => ⟨rfl, rfl⟩⟩
      · refine SameScan.trans ?_ (.schedule _)
        exact ⟨rfl, rfl, rfl, rfl, fun _ => ⟨rfl, rfl⟩⟩
  | stop => exact ⟨rfl, rfl, rfl, rfl, fun _ => ⟨rfl, rfl⟩⟩
  | registerPeriodicCheck | resetCheck | registerEntry | unregisterEntry | destroyEntry | retire => cases hlocal

/-! ## Changes of the checks -/

theorem ChecksChanged.ahead_eq (h : ChecksChanged s s') : s'.ahead = s.ahead := by
  rw [ahead, h.entries, h.scanNext]
  rfl

theorem ChecksChanged.evolves (h : ChecksChanged s s') (hbehind : ∀ e, (s'.behind e).Sublist (s.behind e)) :
    Evolves s s' where
  ahead := h.ahead_eq ▸ .refl _
  current _ he := h.scanCurrent ▸ he
  behind := hbehind

section

variable (h : s.CheckLists)
include h

theorem evolves_resetCheck (c : Nat) : Evolves s (s.resetCheck c) :=
  (changed_resetCheck s c).evolves fun e => by
    rw [h.behind_resetCheck]
    exact List.erase_sublist

theorem evolves_register (e c : Nat) (drain : Bool) : Evolves s (s.registerPeriodicCheck e c drain) :=
  (changed_register s e c drain).evolves fun f => by
    rw [h.behind_register]
    exact List.erase_sublist

theorem keeps_resetCheck (hne : c ≠ d) : Keeps c s (s.resetCheck d) := by
  intro e he
  have hcursor : IsCursor (s.checksOf e) (some c) := fun b hb => by
    cases hb
    exact (h.owner e c).mp he
  have hmoved := (h.checks e).fromCursor_unlink hcursor d
  rw [IntrusiveList.moveCursor, if_neg (fun heq => hne (Option.some.inj heq))] at hmoved
  rw [check_resetCheck, if_neg hne, h.checksOf_resetCheck]
  exact ⟨he, hmoved ▸ List.erase_sublist⟩

theorem keeps_register (hne : c ≠ d) (e : Nat) (drain : Bool) : Keeps c s (s.registerPeriodicCheck e d drain) := by
  intro f hf
  obtain ⟨hentry, hsublist⟩ := keeps_resetCheck h hne f hf
  refine ⟨?_, ?_⟩
  · rw [registerPeriodicCheck, check_setEntry, check_setCheck, if_neg hne]
    exact hentry
  · rw [h.checksOf_resetCheck] at hsublist
    rw [h.checksOf_register]
    split
    · rw [fromCursor_cons (h.not_mem_erase d f)]
      · exact hsublist
      · intro b hb
        cases hb
        exact (List.mem_erase_of_ne hne).mpr ((h.owner f c).mp hf)
    · exact hsublist

theorem evolves_detach (e : Nat) : Evolves s (s.detachPeriodicChecks e) := by
  have hend : Evolves s (s.setEntry e { s.entry e with periodicScanNext := none }) :=
    (ChecksChanged.setEntry s e (s.entry e).periodicChecks none).evolves fun f => by
      rw [behind, behind, checksOf, entry_setEntry]
      split
      · exact List.nil_sublist _
      · exact .refl _
  exact (detachChecks_induction (P := fun s' => s'.CheckLists ∧ Evolves s s') ⟨h.endCursor e, hend⟩
    (fun _ c hs _ => ⟨hs.1.resetCheck c, hs.2.trans (evolves_resetCheck hs.1 c)⟩) _).2

/-- The checks of the other entries stay. -/
theorem keeps_detach (hne : (s.check c).entry ≠ some e) : Keeps c s (s.detachPeriodicChecks e) := by
  have hend : Keeps c s (s.setEntry e { s.entry e with periodicScanNext := none }) := fun f hf => by
    refine ⟨hf, ?_⟩
    rw [checksOf, checksOf, entry_setEntry]
    split
    · rename_i hfe
      exact absurd (hfe ▸ hf) hne
    · exact .refl _
  refine (detachChecks_induction
    (P := fun s' => s'.CheckLists ∧ (s'.check c).entry ≠ some e ∧ Keeps c s s') ⟨h.endCursor e, hne, hend⟩
    (fun s' d hs hfirst => ?_) _).2.2
  have hd : c ≠ d := fun heq => hs.2.1 (by
    rw [heq]
    exact (hs.1.owner e d).mpr ((hs.1.checks e).isCursor_first d hfirst))
  refine ⟨hs.1.resetCheck d, ?_, hs.2.2.trans (keeps_resetCheck hs.1 hd)⟩
  rw [check_resetCheck, if_neg hd]
  exact hs.2.1

end

/-! ## Registrations -/

/-- A registration changes nothing, or puts the entry in front. -/
theorem registerEntry_cases (h : s.Sound) (e : Nat) (now : Int) (scheduleThrows : Bool) :
    s.registerEntry e now scheduleThrows = s ∨
      ∃ t, SameScan s t ∧ e ∉ s.entries.members ∧ s.registerEntry e now scheduleThrows =
        { t.setEntry e ((t.entry e).fresh now) with entries := t.entries.pushFront e } := by
  rw [registerEntry]
  split
  · exact .inl rfl
  · rename_i hout
    have hmem : e ∉ s.entries.members := mt (h.registered e).mpr hout
    split
    · exact .inl rfl
    · right
      split
      · exact ⟨s.schedule, .schedule s, hmem, rfl⟩
      · exact ⟨s, .refl s, hmem, rfl⟩

theorem sameScan_fresh (t : ConnectionScanner) (e : Nat) (now : Int) :
    SameScan t (t.setEntry e ((t.entry e).fresh now)) := .setEntry t rfl rfl

theorem ahead_registerEntry (h : s.Sound) (e : Nat) (now : Int) (scheduleThrows : Bool) :
    (s.registerEntry e now scheduleThrows).ahead = s.ahead := by
  obtain heq | ⟨t, hsame, hout, heq⟩ := registerEntry_cases h e now scheduleThrows
  · rw [heq]
  · rw [heq, ahead, ahead, ← hsame.scanNext]
    show fromCursor (e :: t.entries.members) t.scanNext = _
    rw [hsame.entries, hsame.scanNext]
    exact fromCursor_cons hout h.scanNext

theorem evolves_registerEntry (h : s.Sound) (e : Nat) (now : Int) (scheduleThrows : Bool) :
    Evolves s (s.registerEntry e now scheduleThrows) := by
  refine ⟨ahead_registerEntry h e now scheduleThrows ▸ .refl _, fun f hf => ?_, fun f => ?_⟩
  · obtain heq | ⟨t, hsame, -, heq⟩ := registerEntry_cases h e now scheduleThrows
    · exact heq ▸ hf
    · rw [heq] at hf
      exact hsame.scanCurrent ▸ hf
  · obtain heq | ⟨t, hsame, -, heq⟩ := registerEntry_cases h e now scheduleThrows
    · rw [heq]
    · rw [heq]
      exact (hsame.trans (sameScan_fresh t e now)).evolves.behind f

theorem keeps_registerEntry (h : s.Sound) (c e : Nat) (now : Int) (scheduleThrows : Bool) :
    Keeps c s (s.registerEntry e now scheduleThrows) := by
  obtain heq | ⟨t, hsame, -, heq⟩ := registerEntry_cases h e now scheduleThrows
  · rw [heq]
    exact .refl c s
  · rw [heq]
    exact (hsame.trans (sameScan_fresh t e now)).keeps c

theorem evolves_cut (h : s.Sound) (e : Nat) : Evolves s (s.cut e) where
  ahead := by
    rw [ahead, ahead]
    exact h.entries.fromCursor_unlink h.scanNext e ▸ List.erase_sublist
  current f hf := by
    have hcurrent : (if s.scanCurrent = some e then none else s.scanCurrent) = some f := hf
    split at hcurrent
    · cases hcurrent
    · exact hcurrent
  behind _ := .refl _

theorem sameScan_unregistered (t : ConnectionScanner) (e : Nat) :
    SameScan t (t.setEntry e { t.entry e with registered := false }) := .setEntry t rfl rfl

section

variable (h : s.Sound)
include h

theorem evolves_unregister (e : Nat) : Evolves s (s.unregisterEntry e) := by
  by_cases hin : e ∈ s.entries.members
  · rw [unregisterEntry_in h hin]
    exact ((evolves_cut h e).trans (evolves_detach (h.toCheckLists.cut e) e)).trans
      (sameScan_unregistered _ e).evolves
  · rw [unregisterEntry_out h hin]
    exact .refl s

theorem keeps_unregister (hne : (s.check c).entry = some e → (s.entry e).registered = false) :
    Keeps c s (s.unregisterEntry e) := by
  by_cases hin : e ∈ s.entries.members
  · have howner : (s.check c).entry ≠ some e := fun heq => by
      have hregistered := (h.registered e).mpr hin
      rw [hne heq] at hregistered
      cases hregistered
    rw [unregisterEntry_in h hin]
    have hcut : Keeps c s (s.cut e) := fun f hf => ⟨hf, .refl _⟩
    exact (hcut.trans (keeps_detach (h.toCheckLists.cut e) howner)).trans ((sameScan_unregistered _ e).keeps c)
  · rw [unregisterEntry_out h hin]
    exact .refl c s

theorem ahead_unregister (e : Nat) : (s.unregisterEntry e).ahead = s.ahead.erase e := by
  have hmoved := h.entries.fromCursor_unlink h.scanNext e
  by_cases hin : e ∈ s.entries.members
  · rw [unregisterEntry_in h hin, (sameScan_unregistered _ e).ahead, (changed_detach _ e).ahead_eq]
    exact hmoved
  · rw [unregisterEntry_out h hin, List.erase_of_not_mem]
    exact fun hmem => hin ((fromCursor_sublist _ _).subset hmem)

theorem evolves_destroy (e : Nat) : Evolves s (s.destroyEntry e) := by
  have hdetach := evolves_detach (h.unregisterEntry e).toCheckLists e
  refine ((evolves_unregister h e).trans hdetach).trans ⟨.refl _, fun _ => id, fun f => ?_⟩
  rw [behind, checksOf, destroyEntry, entry_setEntry]
  split
  · exact List.nil_sublist _
  · exact .refl _

theorem keeps_destroy (hne : (s.check c).entry ≠ some e) : Keeps c s (s.destroyEntry e) := by
  have hunregister := keeps_unregister h (c := c) (e := e) fun heq => absurd heq hne
  intro f hf
  have hfe : f ≠ e := fun heq => hne (heq ▸ hf)
  have hafter := (hunregister f hf).1
  obtain ⟨hentry, hsublist⟩ := (hunregister.trans (keeps_detach (h.unregisterEntry e).toCheckLists
    (fun heq => hfe (Option.some.inj (hafter.symm.trans heq))))) f hf
  refine ⟨hentry, ?_⟩
  rw [destroyEntry, checksOf, entry_setEntry, if_neg hfe]
  exact hsublist

theorem ahead_destroy (e : Nat) : (s.destroyEntry e).ahead = s.ahead.erase e := by
  rw [← ahead_unregister h, ← (changed_detach (s.unregisterEntry e) e).ahead_eq]
  rfl

theorem evolves_retire : Evolves s s.retire := by
  have hdisown : Evolves s { s.stop with retired := true } := ⟨.refl _, fun _ => id, fun _ => .refl _⟩
  exact (unregisterEntries_induction (P := fun s' => s'.Sound ∧ Evolves s s') ⟨h.disown, hdisown⟩
    (fun _ e hs _ => ⟨hs.1.unregisterEntry e, hs.2.trans (evolves_unregister hs.1 e)⟩) _).2

/-- A check of an entry that is not registered is left alone. -/
theorem keeps_retire (hne : ∀ e, (s.check c).entry = some e → e ∉ s.entries.members) : Keeps c s s.retire := by
  intro f hf
  refine (unregisterEntries_induction
    (P := fun s' => s'.Sound ∧ f ∉ s'.entries.members ∧ (s'.check c).entry = some f ∧
      (fromCursor (s'.checksOf f) (some c)).Sublist (fromCursor (s.checksOf f) (some c)))
    ⟨h.disown, hne f hf, hf, .refl _⟩ (fun s' e hs hfirst => ?_) _).2.2
  have hfe : f ≠ e := fun heq => hs.2.1 (heq ▸ hs.1.entries.isCursor_first e hfirst)
  have howner : (s'.check c).entry ≠ some e := fun heq => hfe (Option.some.inj (hs.2.2.1.symm.trans heq))
  obtain ⟨hentry, hsublist⟩ := keeps_unregister hs.1 (fun heq => absurd heq howner) f hs.2.2.1
  refine ⟨hs.1.unregisterEntry e, ?_, hentry, hsublist.trans hs.2.2.2⟩
  rw [members_unregister hs.1]
  exact fun hmem => hs.2.1 (List.mem_of_mem_erase hmem)

end

/-! ## All actions -/

/-- **An action adds nothing to what a scan has still to do.** -/
theorem evolves_perform (h : s.Sound) (action : Action) : Evolves s (s.perform action) := by
  cases hlocal : action.localToEntry with
  | true => exact (sameScan_perform s hlocal).evolves
  | false =>
    cases action with
    | registerPeriodicCheck e c drain => exact evolves_register h.toCheckLists e c drain
    | resetCheck c => exact evolves_resetCheck h.toCheckLists c
    | registerEntry e now scheduleThrows => exact evolves_registerEntry h e now scheduleThrows
    | unregisterEntry e => exact evolves_unregister h e
    | destroyEntry e => exact evolves_destroy h e
    | retire => exact evolves_retire h
    | _ => cases hlocal

/-- **An entry before the scan that stays linked stays before it.** -/
theorem stays_perform (h : s.Sound) (hahead : e ∈ s.ahead) (hmem : e ∈ (s.perform action).entries.members) :
    e ∈ (s.perform action).ahead := by
  cases hlocal : action.localToEntry with
  | true => exact (sameScan_perform s hlocal).ahead ▸ hahead
  | false =>
    cases action with
    | registerPeriodicCheck f c drain => exact (changed_register s f c drain).ahead_eq ▸ hahead
    | resetCheck c => exact (changed_resetCheck s c).ahead_eq ▸ hahead
    | registerEntry f now scheduleThrows => exact ahead_registerEntry h f now scheduleThrows ▸ hahead
    | unregisterEntry f =>
      rw [perform, members_unregister h] at hmem
      rw [perform, ahead_unregister h]
      exact (List.mem_erase_of_ne (h.entries.nodup.mem_erase_iff.mp hmem).1).mpr hahead
    | destroyEntry f =>
      have hmem' : e ∈ (s.unregisterEntry f).entries.members := (changed_detach (s.unregisterEntry f) f).entries ▸ hmem
      rw [members_unregister h] at hmem'
      rw [perform, ahead_destroy h]
      exact (List.mem_erase_of_ne (h.entries.nodup.mem_erase_iff.mp hmem').1).mpr hahead
    | retire =>
      rw [perform, members_retire h] at hmem
      cases hmem
    | _ => cases hlocal

/-- **A check that an action does not remove is kept.** -/
theorem keeps_perform (h : s.Sound) (hkept : action.removesCheck s c = false) : Keeps c s (s.perform action) := by
  cases hlocal : action.localToEntry with
  | true => exact (sameScan_perform s hlocal).keeps c
  | false =>
    cases action with
    | registerPeriodicCheck e d drain =>
      exact keeps_register h.toCheckLists (Ne.symm (beq_eq_false_iff_ne.mp hkept)) e drain
    | resetCheck d => exact keeps_resetCheck h.toCheckLists (Ne.symm (beq_eq_false_iff_ne.mp hkept))
    | registerEntry e now scheduleThrows => exact keeps_registerEntry h c e now scheduleThrows
    | unregisterEntry e =>
      refine keeps_unregister h fun heq => ?_
      rw [Action.removesCheck, heq] at hkept
      simpa using hkept
    | destroyEntry e => exact keeps_destroy h (beq_eq_false_iff_ne.mp hkept)
    | retire =>
      refine keeps_retire h fun e he hmem => ?_
      rw [Action.removesCheck, he] at hkept
      exact Bool.false_ne_true (hkept.symm.trans ((h.registered e).mpr hmem))
    | _ => cases hlocal

end ConnectionScanner

end Ruvia.Web
