import Ruvia.Web.ConnectionScanner

/-!
# `Web.ScannerInvariant` — what every action of a connection keeps

The lists of the scanner are proper lists of registered entries and checks, every cursor is at an element of its list
or at its end, and the reusable list has the entries that are reusable (`Sound`). Every action keeps this, but for the
registration of an entry that still has the request-head flag of an earlier registration.
-/

namespace Ruvia.Web

open Library

namespace ConnectionScanner

variable {s s' s'' : ConnectionScanner} {e f c d : Nat}

/-- The checks that are registered with an entry. -/
def checksOf (s : ConnectionScanner) (e : Nat) : List Nat := (s.entry e).periodicChecks.members

/-- The lists of the checks and their cursors are proper. -/
structure CheckLists (s : ConnectionScanner) : Prop where
  checks : ∀ e, (s.entry e).periodicChecks.Sound
  owner : ∀ e c, (s.check c).entry = some e ↔ c ∈ s.checksOf e
  checkCursor : ∀ e, IsCursor (s.checksOf e) (s.entry e).periodicScanNext

/-- All lists and cursors are proper. -/
structure Linked (s : ConnectionScanner) : Prop extends CheckLists s where
  entries : s.entries.Sound
  reusables : s.reusables.Sound
  registered : ∀ e, (s.entry e).registered = true ↔ e ∈ s.entries.members
  listed : ∀ e, e ∈ s.reusables.members → e ∈ s.entries.members
  scanNext : IsCursor s.entries.members s.scanNext
  scanCurrent : IsCursor s.entries.members s.scanCurrent

/-- The reusable list is right about an entry. -/
def Synced (s : ConnectionScanner) (e : Nat) : Prop :=
  e ∈ s.reusables.members ↔ e ∈ s.entries.members ∧ (s.entry e).reusable = true

structure Sound (s : ConnectionScanner) : Prop extends Linked s where
  synced : ∀ e, s.Synced e

/-! ## Entries -/

/-- A change that leaves the lists of an entry alone. -/
def SameLists (entry entry' : Entry) : Prop :=
  entry'.registered = entry.registered ∧ entry'.periodicChecks = entry.periodicChecks ∧
    entry'.periodicScanNext = entry.periodicScanNext

variable {entry : Entry}

theorem checksOf_setEntry (hsame : SameLists (s.entry e) entry) (f : Nat) :
    (s.setEntry e entry).checksOf f = s.checksOf f := by
  rw [checksOf, checksOf, entry_setEntry]
  split
  · rename_i hf
    rw [hf, hsame.2.1]
  · rfl

theorem Linked.setEntry (h : s.Linked) (hsame : SameLists (s.entry e) entry) :
    (s.setEntry e entry).Linked where
  entries := h.entries
  reusables := h.reusables
  checks f := by
    rw [entry_setEntry]
    split
    · rw [hsame.2.1]
      exact h.checks e
    · exact h.checks f
  registered f := by
    rw [entry_setEntry]
    split
    · rename_i hf
      rw [hsame.1, hf]
      exact h.registered e
    · exact h.registered f
  listed := h.listed
  owner f c := by
    rw [checksOf_setEntry hsame]
    exact h.owner f c
  scanNext := h.scanNext
  scanCurrent := h.scanCurrent
  checkCursor f := by
    rw [checksOf_setEntry hsame, entry_setEntry]
    split
    · rename_i hf
      rw [hsame.2.2, hf]
      exact h.checkCursor e
    · exact h.checkCursor f

theorem Synced.setEntry_of_ne (h : s.Synced f) (hne : f ≠ e) (entry : Entry) : (s.setEntry e entry).Synced f := by
  rw [Synced, entry_setEntry, if_neg hne]
  exact h

/-- A change of an entry that is reusable as before. -/
theorem Sound.setEntry (h : s.Sound) (hsame : SameLists (s.entry e) entry)
    (hreusable : entry.reusable = (s.entry e).reusable) : (s.setEntry e entry).Sound where
  toLinked := h.toLinked.setEntry hsame
  synced f := by
    by_cases hf : f = e
    · rw [Synced, entry_setEntry, if_pos hf, hreusable, ← hf]
      exact h.synced f
    · exact (h.synced f).setEntry_of_ne hf entry

theorem Linked.syncReusable (h : s.Linked) (e : Nat) : (s.syncReusable e).Linked := by
  rw [ConnectionScanner.syncReusable]
  split
  · exact h
  · rename_i hchange
    rw [Bool.or_eq_true, not_or, Bool.not_eq_true', Bool.not_eq_false] at hchange
    split
    · exact { h with reusables := h.reusables.unlink e, listed := fun f hf => h.listed f (List.mem_of_mem_erase hf) }
    · rename_i hlisted
      have hout : e ∉ s.reusables.members := fun hmem => hlisted (h.reusables.linked_iff.mpr hmem)
      refine { h with reusables := h.reusables.pushBack hout, listed := fun f hf => ?_ }
      rcases List.mem_append.mp hf with hf | hf
      · exact h.listed f hf
      · rw [List.mem_singleton.mp hf]
        exact (h.registered e).mp hchange.1

theorem syncReusable_entry (s : ConnectionScanner) (e : Nat) : (s.syncReusable e).entry = s.entry := by
  rw [syncReusable]
  split
  · rfl
  · split <;> rfl

theorem syncReusable_entries (s : ConnectionScanner) (e : Nat) : (s.syncReusable e).entries = s.entries := by
  rw [syncReusable]
  split
  · rfl
  · split <;> rfl

theorem mem_syncReusable (s : ConnectionScanner) (hne : f ≠ e) :
    f ∈ (s.syncReusable e).reusables.members ↔ f ∈ s.reusables.members := by
  rw [syncReusable]
  split
  · rfl
  · split
    · exact List.mem_erase_of_ne hne
    · simp [hne]

theorem Synced.syncReusable_of_ne (h : s.Synced f) (hne : f ≠ e) : (s.syncReusable e).Synced f := by
  rw [Synced, mem_syncReusable s hne, syncReusable_entry, syncReusable_entries]
  exact h

theorem Linked.syncReusable_synced (h : s.Linked) (e : Nat) : (s.syncReusable e).Synced e := by
  rw [Synced, syncReusable_entry, syncReusable_entries, ConnectionScanner.syncReusable]
  have hlisted := h.reusables.linked_iff (a := e)
  have hregistered := h.registered e
  split
  · rename_i hskip
    rw [Bool.or_eq_true, Bool.not_eq_true', beq_iff_eq] at hskip
    rcases hskip with hout | hsame
    · have hentry : e ∉ s.entries.members := fun hmem => by simp [hregistered.mpr hmem] at hout
      exact iff_of_false (fun hmem => hentry (h.listed e hmem)) fun hmem => hentry hmem.1
    · rw [hsame, hlisted]
      exact ⟨fun hmem => ⟨h.listed e hmem, hmem⟩, And.right⟩
  · rename_i hchange
    rw [Bool.or_eq_true, not_or, Bool.not_eq_true', Bool.not_eq_false, beq_iff_eq] at hchange
    split
    · rename_i hlinked
      rw [hlinked] at hchange
      refine iff_of_false ?_ fun hmem => hchange.2 hmem.2
      exact fun hmem => (h.reusables.nodup.mem_erase_iff.mp hmem).1 rfl
    · rename_i hlinked
      rw [Bool.not_eq_true] at hlinked
      rw [hlinked, Bool.not_eq_false] at hchange
      exact iff_of_true (by simp) ⟨hregistered.mp hchange.1, hchange.2⟩

/-- **A change of an entry that ends with `sync_reusable`.** -/
theorem Linked.update (h : s.Linked) (hsynced : ∀ f, f ≠ e → s.Synced f) (hsame : SameLists (s.entry e) entry) :
    ((s.setEntry e entry).syncReusable e).Sound where
  toLinked := (h.setEntry hsame).syncReusable e
  synced f := by
    by_cases hf : f = e
    · rw [hf]
      exact (h.setEntry hsame).syncReusable_synced e
    · exact ((hsynced f hf).setEntry_of_ne hf entry).syncReusable_of_ne hf

section

variable (h : s.Sound)
include h

theorem Sound.update (hsame : SameLists (s.entry e) entry) : ((s.setEntry e entry).syncReusable e).Sound :=
  h.toLinked.update (fun f _ => h.synced f) hsame

theorem Sound.touch (e : Nat) (now : Int) : (s.touch e now).Sound := by
  rw [ConnectionScanner.touch]
  split
  · exact h.setEntry ⟨rfl, rfl, rfl⟩ rfl
  · exact h

theorem Sound.noteWriteProgress (e : Nat) (now : Int) : (s.noteWriteProgress e now).Sound := by
  rw [ConnectionScanner.noteWriteProgress]
  split
  · exact h.setEntry ⟨rfl, rfl, rfl⟩ rfl
  · exact h

theorem Sound.setPhase (e : Nat) (nextPhase : Phase) (now : Int) : (s.setPhase e nextPhase now).Sound := by
  rw [ConnectionScanner.setPhase]
  split
  · exact h.update ⟨rfl, rfl, rfl⟩
  · exact h

theorem Sound.readRequestHead (e : Nat) (timeoutPhase : Phase) (now : Int) :
    (s.readRequestHead e timeoutPhase now).Sound :=
  (h.setPhase e timeoutPhase now).update ⟨rfl, rfl, rfl⟩

theorem Sound.endPhaseScope (e : Nat) (saved : SavedPhase) (now : Int) : (s.endPhaseScope e saved now).Sound := by
  rw [ConnectionScanner.endPhaseScope]
  split
  · exact h.update ⟨rfl, rfl, rfl⟩
  · exact h

theorem Sound.beginWriteScope (e : Nat) (now : Int) : (s.beginWriteScope e now).Sound := by
  refine Sound.setEntry ?_ ⟨rfl, rfl, rfl⟩ rfl
  split
  · exact h
  · exact h.noteWriteProgress e now

theorem Sound.endWriteScope (e : Nat) (now : Int) : (s.endWriteScope e now).Sound := by
  refine Sound.touch ?_ e now
  exact h.setEntry ⟨rfl, rfl, rfl⟩ rfl

theorem Sound.recordCloseRequest (e : Nat) (deadlineMs : Int) : (s.recordCloseRequest e deadlineMs).Sound :=
  h.update ⟨rfl, rfl, rfl⟩

theorem Sound.evictOldestReusable : s.evictOldestReusable.Sound := by
  rw [ConnectionScanner.evictOldestReusable]
  split
  · exact h
  · exact h.recordCloseRequest _ _

end

/-! ## Checks -/

/-- A change of the checks only. -/
structure ChecksChanged (s s' : ConnectionScanner) : Prop where
  entries : s'.entries = s.entries
  reusables : s'.reusables = s.reusables
  scanNext : s'.scanNext = s.scanNext
  scanCurrent : s'.scanCurrent = s.scanCurrent
  registered : ∀ e, (s'.entry e).registered = (s.entry e).registered
  reusable : ∀ e, (s'.entry e).reusable = (s.entry e).reusable

theorem ChecksChanged.refl (s : ConnectionScanner) : ChecksChanged s s :=
  ⟨rfl, rfl, rfl, rfl, fun _ => rfl, fun _ => rfl⟩

theorem ChecksChanged.trans (h : ChecksChanged s s') (h' : ChecksChanged s' s'') : ChecksChanged s s'' where
  entries := h'.entries.trans h.entries
  reusables := h'.reusables.trans h.reusables
  scanNext := h'.scanNext.trans h.scanNext
  scanCurrent := h'.scanCurrent.trans h.scanCurrent
  registered e := (h'.registered e).trans (h.registered e)
  reusable e := (h'.reusable e).trans (h.reusable e)

theorem ChecksChanged.setEntry (s : ConnectionScanner) (e : Nat) (checks : IntrusiveList Nat) (cursor : Option Nat) :
    ChecksChanged s (s.setEntry e { s.entry e with periodicChecks := checks, periodicScanNext := cursor }) where
  entries := rfl
  reusables := rfl
  scanNext := rfl
  scanCurrent := rfl
  registered f := by
    rw [entry_setEntry]
    split
    · rename_i hf
      rw [hf]
    · rfl
  reusable f := by
    rw [entry_setEntry]
    split
    · rename_i hf
      rw [hf]
      rfl
    · rfl

theorem Sound.of_checks (h : s.Sound) (hchanged : ChecksChanged s s') (hlists : s'.CheckLists) : s'.Sound where
  toCheckLists := hlists
  entries := hchanged.entries ▸ h.entries
  reusables := hchanged.reusables ▸ h.reusables
  registered e := by
    rw [hchanged.registered, hchanged.entries]
    exact h.registered e
  listed e := by
    rw [hchanged.reusables, hchanged.entries]
    exact h.listed e
  scanNext := by
    rw [hchanged.entries, hchanged.scanNext]
    exact h.scanNext
  scanCurrent := by
    rw [hchanged.entries, hchanged.scanCurrent]
    exact h.scanCurrent
  synced e := by
    rw [Synced, hchanged.reusables, hchanged.entries, hchanged.reusable]
    exact h.synced e

/-- The checks of an entry that a scan has still to tick. -/
def behind (s : ConnectionScanner) (e : Nat) : List Nat := fromCursor (s.checksOf e) (s.entry e).periodicScanNext

theorem resetCheck_none (h : (s.check c).entry = none) : s.resetCheck c = s := by
  rw [resetCheck, h]

theorem resetCheck_some (h : (s.check c).entry = some e) : s.resetCheck c =
    (s.setEntry e
      { s.entry e with
        periodicChecks := (s.entry e).periodicChecks.unlink c
        periodicScanNext := (s.entry e).periodicChecks.moveCursor c (s.entry e).periodicScanNext }).setCheck c {} := by
  rw [resetCheck, h]
  exact if_neg (not_not_intro h)

theorem changed_resetCheck (s : ConnectionScanner) (c : Nat) : ChecksChanged s (s.resetCheck c) := by
  cases howner : (s.check c).entry with
  | none =>
    rw [resetCheck_none howner]
    exact .refl s
  | some e =>
    rw [resetCheck_some howner]
    have hset := ChecksChanged.setEntry s e ((s.entry e).periodicChecks.unlink c)
      ((s.entry e).periodicChecks.moveCursor c (s.entry e).periodicScanNext)
    exact ⟨hset.entries, hset.reusables, hset.scanNext, hset.scanCurrent, hset.registered, hset.reusable⟩

theorem check_resetCheck (s : ConnectionScanner) (c d : Nat) :
    ((s.resetCheck c).check d).entry = if d = c then none else (s.check d).entry := by
  cases howner : (s.check c).entry with
  | none =>
    rw [resetCheck_none howner]
    split
    · rename_i hd
      rw [hd, howner]
    · rfl
  | some e =>
    rw [resetCheck_some howner, check_setCheck, check_setEntry]
    split <;> rfl

section

variable (h : s.CheckLists)
include h

theorem CheckLists.not_mem_of_owner (howner : (s.check c).entry ≠ some e) : c ∉ s.checksOf e :=
  fun hmem => howner ((h.owner e c).mpr hmem)

theorem CheckLists.checksOf_resetCheck (c f : Nat) : (s.resetCheck c).checksOf f = (s.checksOf f).erase c := by
  cases howner : (s.check c).entry with
  | none =>
    rw [resetCheck_none howner, List.erase_of_not_mem (h.not_mem_of_owner (by simp [howner]))]
  | some e =>
    rw [resetCheck_some howner, checksOf, entry_setCheck, entry_setEntry]
    split
    · rename_i hf
      rw [hf]
      rfl
    · rename_i hf
      rw [List.erase_of_not_mem (h.not_mem_of_owner (by simpa [howner] using Ne.symm hf))]
      rfl

theorem CheckLists.not_mem_erase (c f : Nat) : c ∉ (s.checksOf f).erase c :=
  fun hmem => ((h.checks f).nodup.mem_erase_iff.mp hmem).1 rfl

/-- A check that is reset is moved out of the way of every cursor. -/
theorem CheckLists.cursor_resetCheck (c f : Nat) :
    ((s.resetCheck c).entry f).periodicScanNext =
      (s.entry f).periodicChecks.moveCursor c (s.entry f).periodicScanNext := by
  have hout : c ∉ s.checksOf f → (s.entry f).periodicChecks.moveCursor c (s.entry f).periodicScanNext =
      (s.entry f).periodicScanNext := fun hmem => if_neg fun heq => hmem (h.checkCursor f c heq)
  cases howner : (s.check c).entry with
  | none => rw [resetCheck_none howner, hout (h.not_mem_of_owner (by simp [howner]))]
  | some e =>
    rw [resetCheck_some howner, entry_setCheck, entry_setEntry]
    split
    · rename_i hf
      rw [hf]
    · rename_i hf
      rw [hout (h.not_mem_of_owner (by simpa [howner] using Ne.symm hf))]

theorem CheckLists.behind_resetCheck (c f : Nat) : (s.resetCheck c).behind f = (s.behind f).erase c := by
  rw [behind, h.checksOf_resetCheck, h.cursor_resetCheck]
  exact (h.checks f).fromCursor_unlink (h.checkCursor f) c

theorem CheckLists.checks_resetCheck (c f : Nat) : ((s.resetCheck c).entry f).periodicChecks.Sound := by
  cases howner : (s.check c).entry with
  | none =>
    rw [resetCheck_none howner]
    exact h.checks f
  | some e =>
    rw [resetCheck_some howner, entry_setCheck, entry_setEntry]
    split
    · exact (h.checks e).unlink c
    · exact h.checks f

theorem CheckLists.resetCheck (c : Nat) : (s.resetCheck c).CheckLists := by
  refine ⟨h.checks_resetCheck c, fun e d => ?_, fun e => ?_⟩
  · rw [check_resetCheck, h.checksOf_resetCheck]
    split
    · rename_i hd
      rw [hd]
      exact iff_of_false (by simp) (h.not_mem_erase c e)
    · rename_i hd
      exact (h.owner e d).trans (List.mem_erase_of_ne hd).symm
  · rw [h.checksOf_resetCheck, h.cursor_resetCheck]
    exact (h.checks e).isCursor_unlink (h.checkCursor e) c

/-- The check that is registered comes in front of those there are. -/
theorem CheckLists.checksOf_register (e c : Nat) (drain : Bool) (f : Nat) :
    (s.registerPeriodicCheck e c drain).checksOf f = if f = e then c :: (s.checksOf f).erase c
      else (s.checksOf f).erase c := by
  rw [← h.checksOf_resetCheck, registerPeriodicCheck, checksOf, entry_setEntry, entry_setCheck]
  split
  · rename_i hf
    rw [hf]
    rfl
  · rfl

end

theorem cursor_register (s : ConnectionScanner) (e c : Nat) (drain : Bool) (f : Nat) :
    ((s.registerPeriodicCheck e c drain).entry f).periodicScanNext = ((s.resetCheck c).entry f).periodicScanNext := by
  rw [registerPeriodicCheck, entry_setEntry, entry_setCheck]
  split
  · rename_i hf
    rw [hf]
  · rfl

theorem changed_register (s : ConnectionScanner) (e c : Nat) (drain : Bool) :
    ChecksChanged s (s.registerPeriodicCheck e c drain) := by
  have hset := ChecksChanged.setEntry ((s.resetCheck c).setCheck c { entry := some e, drain }) e
    (((s.resetCheck c).entry e).periodicChecks.pushFront c) ((s.resetCheck c).entry e).periodicScanNext
  exact (changed_resetCheck s c).trans
    ⟨hset.entries, hset.reusables, hset.scanNext, hset.scanCurrent, hset.registered, hset.reusable⟩

theorem CheckLists.behind_register (h : s.CheckLists) (e c : Nat) (drain : Bool) (f : Nat) :
    (s.registerPeriodicCheck e c drain).behind f = (s.behind f).erase c := by
  have hreset := h.behind_resetCheck c f
  rw [behind, h.checksOf_resetCheck] at hreset
  rw [← hreset, behind, h.checksOf_register, cursor_register]
  split
  · refine fromCursor_cons (h.not_mem_erase c f) ?_
    rw [h.cursor_resetCheck]
    exact (h.checks f).isCursor_unlink (h.checkCursor f) c
  · rfl

theorem CheckLists.registerPeriodicCheck (h : s.CheckLists) (e c : Nat) (drain : Bool) :
    (s.registerPeriodicCheck e c drain).CheckLists := by
  have hreset := h.resetCheck c
  have hout : c ∉ (s.resetCheck c).checksOf e := by
    rw [h.checksOf_resetCheck]
    exact h.not_mem_erase c e
  refine ⟨fun f => ?_, fun f d => ?_, fun f => ?_⟩
  · rw [ConnectionScanner.registerPeriodicCheck, entry_setEntry, entry_setCheck]
    split
    · exact (hreset.checks e).pushFront hout
    · exact hreset.checks f
  · rw [h.checksOf_register, ConnectionScanner.registerPeriodicCheck, check_setEntry, check_setCheck]
    have howner := hreset.owner f d
    rw [h.checksOf_resetCheck, check_resetCheck] at howner
    by_cases hd : d = c
    · rw [if_pos hd, hd]
      have hc := h.not_mem_erase c f
      by_cases hf : f = e
      · simp [hf]
      · simp [hf, Ne.symm hf, hc]
    · rw [if_neg hd] at howner ⊢
      rw [check_resetCheck, if_neg hd, howner]
      split
      · simp [hd]
      · rfl
  · rw [h.checksOf_register, cursor_register]
    intro d hd
    have hmem := hreset.checkCursor f d hd
    rw [h.checksOf_resetCheck] at hmem
    split
    · exact List.mem_cons_of_mem c hmem
    · exact hmem

variable {P : ConnectionScanner → Prop}

/-- What every reset of a check of the entry keeps is kept by all of them. -/
theorem detachChecks_induction (hP : P s)
    (hreset : ∀ s c, P s → (s.entry e).periodicChecks.first = some c → P (s.resetCheck c)) (steps : Nat) :
    P (s.detachChecks e steps) := by
  induction steps generalizing s with
  | zero => exact hP
  | succ steps ih =>
    rw [detachChecks]
    split
    · exact hP
    · rename_i c hfirst
      exact ih (hreset s c hP hfirst)

theorem CheckLists.detachChecks (h : s.CheckLists) (e steps : Nat) : (s.detachChecks e steps).CheckLists :=
  detachChecks_induction h (fun _ c hs _ => hs.resetCheck c) steps

theorem changed_detachChecks (s : ConnectionScanner) (e steps : Nat) : ChecksChanged s (s.detachChecks e steps) :=
  detachChecks_induction (.refl s) (fun _ c hs _ => hs.trans (changed_resetCheck _ c)) steps

/-- No check of the entry is left. -/
theorem CheckLists.checksOf_detachChecks (h : s.CheckLists) {steps : Nat} (hsteps : (s.checksOf e).length ≤ steps) :
    (s.detachChecks e steps).checksOf e = [] := by
  induction steps generalizing s with
  | zero => exact List.length_eq_zero_iff.mp (Nat.le_zero.mp hsteps)
  | succ steps ih =>
    rw [ConnectionScanner.detachChecks]
    split
    · rename_i hfirst
      rw [(h.checks e).first_eq] at hfirst
      exact List.head?_eq_none_iff.mp hfirst
    · rename_i c hfirst
      refine ih (h.resetCheck c) ?_
      have hmem : c ∈ s.checksOf e := (h.checks e).isCursor_first c hfirst
      rw [h.checksOf_resetCheck, List.length_erase_of_mem hmem]
      omega

theorem changed_detach (s : ConnectionScanner) (e : Nat) : ChecksChanged s (s.detachPeriodicChecks e) :=
  (ChecksChanged.setEntry s e (s.entry e).periodicChecks none).trans (changed_detachChecks _ e _)

variable {cursor : Option Nat}

section

variable (h : s.CheckLists)
include h

/-- The cursor of an entry is put to one of its checks, or to the end. -/
theorem CheckLists.setCursor (hcursor : IsCursor (s.checksOf e) cursor) :
    (s.setEntry e { s.entry e with periodicScanNext := cursor }).CheckLists := by
  have hchecks : ∀ f, ((s.setEntry e { s.entry e with periodicScanNext := cursor }).entry f).periodicChecks =
      (s.entry f).periodicChecks := by
    intro f
    rw [entry_setEntry]
    split
    · rename_i hf
      rw [hf]
    · rfl
  refine ⟨fun f => hchecks f ▸ h.checks f, fun f c => ?_, fun f => ?_⟩
  · rw [checksOf, hchecks]
    exact h.owner f c
  · rw [checksOf, hchecks, entry_setEntry]
    split
    · rename_i hf
      exact hf ▸ hcursor
    · exact h.checkCursor f

theorem CheckLists.endCursor (e : Nat) :
    (s.setEntry e { s.entry e with periodicScanNext := none }).CheckLists := h.setCursor (isCursor_none _)

theorem CheckLists.detachPeriodicChecks (e : Nat) : (s.detachPeriodicChecks e).CheckLists :=
  (h.endCursor e).detachChecks e _

theorem CheckLists.checksOf_detach (e : Nat) : (s.detachPeriodicChecks e).checksOf e = [] :=
  (h.endCursor e).checksOf_detachChecks (Nat.le_refl _)

end

theorem Sound.setCursor (h : s.Sound) (hcursor : IsCursor (s.checksOf e) cursor) :
    (s.setEntry e { s.entry e with periodicScanNext := cursor }).Sound :=
  h.of_checks (.setEntry s e (s.entry e).periodicChecks cursor) (h.toCheckLists.setCursor hcursor)

/-! ## Registration -/

/-- The lists know nothing of the clocks and the timer. -/
theorem Sound.clocks (h : s.Sound) (running retired timerRegistered quietTrimmed : Bool)
    (cachedNowMs retiredActivityMs : Int) : Sound
      { s with running, retired, timerRegistered, quietTrimmed, cachedNowMs, retiredActivityMs } :=
  ⟨⟨⟨h.checks, h.owner, h.checkCursor⟩, h.entries, h.reusables, h.registered, h.listed, h.scanNext, h.scanCurrent⟩,
    h.synced⟩

theorem Sound.schedule (h : s.Sound) : s.schedule.Sound := by
  rw [ConnectionScanner.schedule]
  split
  · exact h.clocks _ _ _ _ _ _
  · exact h

theorem Sound.start (h : s.Sound) (now : Int) (scheduleThrows : Bool) : (s.start now scheduleThrows).Sound := by
  rw [ConnectionScanner.start]
  split
  · exact h
  · split
    · exact h.clocks _ _ _ _ _ _
    · exact Sound.schedule (h.clocks _ _ _ _ _ _)

theorem Sound.stop (h : s.Sound) : s.stop.Sound := h.clocks _ _ _ _ _ _

/-- The entry as it is registered. -/
def Entry.fresh (entry : Entry) (now : Int) : Entry :=
  { entry with registered := true, lastActiveMs := now, phaseStartedMs := now, phase := .idle, closeRequested := false }

/-- What is registered comes in front. -/
theorem Sound.link (h : s.Sound) (hout : e ∉ s.entries.members) (hhead : (s.entry e).readingRequestHead = false)
    (now : Int) :
    Sound { s.setEntry e ((s.entry e).fresh now) with entries := s.entries.pushFront e } := by
  have hentry : ∀ f, f ≠ e → (s.setEntry e ((s.entry e).fresh now)).entry f = s.entry f := by
    intro f hf
    rw [entry_setEntry, if_neg hf]
  have hself : (s.setEntry e ((s.entry e).fresh now)).entry e = (s.entry e).fresh now := by
    rw [entry_setEntry, if_pos rfl]
  have hchecks : ∀ f, ((s.setEntry e ((s.entry e).fresh now)).entry f).periodicChecks = (s.entry f).periodicChecks ∧
      ((s.setEntry e ((s.entry e).fresh now)).entry f).periodicScanNext = (s.entry f).periodicScanNext := by
    intro f
    by_cases hf : f = e
    · rw [hf, hself]
      exact ⟨rfl, rfl⟩
    · rw [hentry f hf]
      exact ⟨rfl, rfl⟩
  refine ⟨⟨⟨fun f => ?_, fun f c => ?_, fun f => ?_⟩, h.entries.pushFront hout, h.reusables, fun f => ?_,
    fun f hf => ?_, ?_, ?_⟩, fun f => ?_⟩
  · rw [(hchecks f).1]
    exact h.checks f
  · show _ ↔ c ∈ ((s.setEntry e _).entry f).periodicChecks.members
    rw [(hchecks f).1]
    exact h.owner f c
  · show IsCursor ((s.setEntry e _).entry f).periodicChecks.members ((s.setEntry e _).entry f).periodicScanNext
    rw [(hchecks f).1, (hchecks f).2]
    exact h.checkCursor f
  · show ((s.setEntry e _).entry f).registered = true ↔ f ∈ e :: s.entries.members
    by_cases hf : f = e
    · rw [hf, hself]
      exact iff_of_true rfl List.mem_cons_self
    · rw [hentry f hf, h.registered, List.mem_cons, or_iff_right hf]
  · exact List.mem_cons_of_mem e (h.listed f hf)
  · exact fun f hf => List.mem_cons_of_mem e (h.scanNext f hf)
  · exact fun f hf => List.mem_cons_of_mem e (h.scanCurrent f hf)
  · show f ∈ s.reusables.members ↔ f ∈ e :: s.entries.members ∧ ((s.setEntry e _).entry f).reusable = true
    by_cases hf : f = e
    · rw [hf, hself]
      refine iff_of_false (fun hmem => hout (h.listed e hmem)) fun hmem => ?_
      have hreusable := hmem.2
      simp [Entry.reusable, Entry.fresh, hhead] at hreusable
    · rw [hentry f hf, List.mem_cons, or_iff_right hf]
      exact h.synced f

theorem Sound.registerEntry (h : s.Sound) (now : Int) (scheduleThrows : Bool)
    (hhead : (s.entry e).registered = false → (s.entry e).readingRequestHead = false) :
    (s.registerEntry e now scheduleThrows).Sound := by
  rw [ConnectionScanner.registerEntry]
  split
  · exact h
  · rename_i hout
    have hmem : e ∉ s.entries.members := mt (h.registered e).mpr hout
    have hfree := hhead (Bool.not_eq_true _ ▸ hout)
    split
    · exact h
    · split
      · have hscheduled := h.schedule
        have hsame : s.schedule.entries = s.entries ∧ s.schedule.entry = s.entry := by
          rw [ConnectionScanner.schedule]
          split <;> exact ⟨rfl, rfl⟩
        exact hscheduled.link (hsame.1 ▸ hmem) (hsame.2 ▸ hfree) now
      · exact h.link hmem hfree now

/-- The lists without an entry, up to its checks. -/
def cut (s : ConnectionScanner) (e : Nat) : ConnectionScanner :=
  { s with
    retiredActivityMs := max s.retiredActivityMs (s.entry e).lastActiveMs
    scanCurrent := if s.scanCurrent = some e then none else s.scanCurrent
    scanNext := s.entries.moveCursor e s.scanNext
    entries := s.entries.unlink e
    reusables := s.reusables.unlink e }

theorem unregisterEntry_out (h : s.Sound) (hout : e ∉ s.entries.members) : s.unregisterEntry e = s := by
  rw [unregisterEntry, if_pos]
  rw [Bool.or_eq_true, Bool.not_eq_true', Bool.not_eq_true']
  exact .inl (Bool.eq_false_iff.mpr (mt (h.registered e).mp hout))

theorem unregisterEntry_in (h : s.Sound) (hin : e ∈ s.entries.members) : s.unregisterEntry e =
    ((s.cut e).detachPeriodicChecks e).setEntry e
      { ((s.cut e).detachPeriodicChecks e).entry e with registered := false } := by
  rw [unregisterEntry, if_neg]
  · rfl
  · rw [(h.registered e).mpr hin, h.entries.linked_iff.mpr hin]
    exact Bool.false_ne_true

theorem CheckLists.cut (h : s.CheckLists) (e : Nat) : (s.cut e).CheckLists := ⟨h.checks, h.owner, h.checkCursor⟩

/-- An entry that only stops being registered. -/
theorem CheckLists.setRegistered (h : s.CheckLists) (e : Nat) (registered : Bool) :
    (s.setEntry e { s.entry e with registered }).CheckLists := by
  have hentry : ∀ f, ((s.setEntry e { s.entry e with registered }).entry f).periodicChecks =
      (s.entry f).periodicChecks ∧
      ((s.setEntry e { s.entry e with registered }).entry f).periodicScanNext = (s.entry f).periodicScanNext := by
    intro f
    rw [entry_setEntry]
    split
    · rename_i hf
      rw [hf]
      exact ⟨rfl, rfl⟩
    · exact ⟨rfl, rfl⟩
  refine ⟨fun f => ?_, fun f c => ?_, fun f => ?_⟩
  · rw [(hentry f).1]
    exact h.checks f
  · rw [checksOf, (hentry f).1]
    exact h.owner f c
  · rw [checksOf, (hentry f).1, (hentry f).2]
    exact h.checkCursor f

theorem Sound.unregisterEntry (h : s.Sound) (e : Nat) : (s.unregisterEntry e).Sound := by
  by_cases hin : e ∈ s.entries.members
  · rw [unregisterEntry_in h hin]
    have hchanged := changed_detach (s.cut e) e
    have hmem : ∀ f, f ∈ (s.cut e).entries.members ↔ f ≠ e ∧ f ∈ s.entries.members := fun f =>
      h.entries.nodup.mem_erase_iff
    have hmem' : ∀ f, f ∈ (s.cut e).reusables.members ↔ f ≠ e ∧ f ∈ s.reusables.members := fun f =>
      h.reusables.nodup.mem_erase_iff
    exact {
      toCheckLists := ((h.toCheckLists.cut e).detachPeriodicChecks e).setRegistered e false
      entries := by
        rw [entries_setEntry, hchanged.entries]
        exact h.entries.unlink e
      reusables := by
        rw [reusables_setEntry, hchanged.reusables]
        exact h.reusables.unlink e
      registered := fun f => by
        rw [entries_setEntry, hchanged.entries, hmem, entry_setEntry]
        split
        · rename_i hf
          exact iff_of_false Bool.false_ne_true fun hne => hne.1 hf
        · rename_i hf
          rw [hchanged.registered, and_iff_right hf]
          exact h.registered f
      listed := fun f hf => by
        rw [reusables_setEntry, hchanged.reusables, hmem'] at hf
        rw [entries_setEntry, hchanged.entries, hmem]
        exact ⟨hf.1, h.listed f hf.2⟩
      scanNext := by
        rw [entries_setEntry, hchanged.entries, scanNext_setEntry, hchanged.scanNext]
        exact h.entries.isCursor_unlink h.scanNext e
      scanCurrent := fun f hf => by
        rw [scanCurrent_setEntry, hchanged.scanCurrent] at hf
        rw [entries_setEntry, hchanged.entries, hmem]
        have hcurrent : (if s.scanCurrent = some e then none else s.scanCurrent) = some f := hf
        split at hcurrent
        · cases hcurrent
        · rename_i hne
          exact ⟨fun heq => hne (heq ▸ hcurrent), h.scanCurrent f hcurrent⟩
      synced := fun f => by
        rw [Synced, reusables_setEntry, hchanged.reusables, hmem', entries_setEntry, hchanged.entries, hmem,
          entry_setEntry]
        by_cases hf : f = e
        · exact iff_of_false (fun hne => hne.1 hf) fun hne => hne.1.1 hf
        · rw [if_neg hf, hchanged.reusable, and_iff_right hf, and_iff_right hf]
          exact h.synced f }
  · rwa [unregisterEntry_out h hin]

theorem members_unregister (h : s.Sound) (e : Nat) :
    (s.unregisterEntry e).entries.members = s.entries.members.erase e := by
  by_cases hin : e ∈ s.entries.members
  · rw [unregisterEntry_in h hin, entries_setEntry, (changed_detach (s.cut e) e).entries]
    rfl
  · rw [unregisterEntry_out h hin, List.erase_of_not_mem hin]

theorem Sound.destroyEntry (h : s.Sound) (e : Nat) : (s.destroyEntry e).Sound := by
  have hout := h.unregisterEntry e
  have hlists := hout.toCheckLists.detachPeriodicChecks e
  have hnone := hout.toCheckLists.checksOf_detach e
  have hdetached := hout.of_checks (changed_detach _ e) hlists
  have hmem : e ∉ ((s.unregisterEntry e).detachPeriodicChecks e).entries.members := by
    rw [(changed_detach _ e).entries, members_unregister h]
    exact fun hmem => (h.entries.nodup.mem_erase_iff.mp hmem).1 rfl
  have hchecks : ∀ f, (s.destroyEntry e).checksOf f = ((s.unregisterEntry e).detachPeriodicChecks e).checksOf f := by
    intro f
    rw [ConnectionScanner.destroyEntry, checksOf, entry_setEntry]
    split
    · rename_i hf
      rw [hf, hnone]
      rfl
    · rfl
  refine ⟨⟨⟨fun f => ?_, fun f c => ?_, fun f => ?_⟩, hdetached.entries, hdetached.reusables, fun f => ?_,
    hdetached.listed, hdetached.scanNext, hdetached.scanCurrent⟩, fun f => ?_⟩
  · rw [ConnectionScanner.destroyEntry, entry_setEntry]
    split
    · exact IntrusiveList.sound_empty
    · exact hlists.checks f
  · rw [hchecks]
    exact hlists.owner f c
  · rw [hchecks, ConnectionScanner.destroyEntry, entry_setEntry]
    split
    · exact isCursor_none _
    · exact hlists.checkCursor f
  · rw [ConnectionScanner.destroyEntry, entry_setEntry]
    split
    · rename_i hf
      rw [hf]
      exact iff_of_false Bool.false_ne_true hmem
    · exact hdetached.registered f
  · rw [Synced, ConnectionScanner.destroyEntry, reusables_setEntry, entries_setEntry, entry_setEntry]
    split
    · rename_i hf
      rw [hf]
      exact iff_of_false (fun hlisted => hmem (hdetached.listed e hlisted)) fun hin => hmem hin.1
    · exact hdetached.synced f

theorem unregisterEntries_induction (hP : P s)
    (hunregister : ∀ s e, P s → s.entries.first = some e → P (s.unregisterEntry e)) (steps : Nat) :
    P (s.unregisterEntries steps) := by
  induction steps generalizing s with
  | zero => exact hP
  | succ steps ih =>
    rw [unregisterEntries]
    split
    · exact hP
    · rename_i e hfirst
      exact ih (hunregister s e hP hfirst)

/-- No entry is left. -/
theorem Sound.members_unregisterEntries (h : s.Sound) {steps : Nat} (hsteps : s.entries.members.length ≤ steps) :
    (s.unregisterEntries steps).entries.members = [] := by
  induction steps generalizing s with
  | zero => exact List.length_eq_zero_iff.mp (Nat.le_zero.mp hsteps)
  | succ steps ih =>
    rw [unregisterEntries]
    split
    · rename_i hfirst
      rw [h.entries.first_eq] at hfirst
      exact List.head?_eq_none_iff.mp hfirst
    · rename_i e hfirst
      refine ih (h.unregisterEntry e) ?_
      rw [members_unregister h, List.length_erase_of_mem (h.entries.isCursor_first e hfirst)]
      omega

/-- The scanner as `retire` has stopped it. -/
theorem Sound.disown (h : s.Sound) : Sound { s.stop with retired := true } := h.clocks _ _ _ _ _ _

theorem Sound.retire (h : s.Sound) : s.retire.Sound :=
  unregisterEntries_induction h.disown (fun _ e hs _ => hs.unregisterEntry e) _

theorem members_retire (h : s.Sound) : s.retire.entries.members = [] :=
  h.disown.members_unregisterEntries (Nat.le_refl _)

/-! ## Actions -/

/-- An action takes a check from its list. -/
def Action.removesCheck (s : ConnectionScanner) (c : Nat) : Action → Bool
  | .registerPeriodicCheck _ d _ | .resetCheck d => d == c
  | .unregisterEntry e => (s.check c).entry == some e && (s.entry e).registered
  | .destroyEntry e => (s.check c).entry == some e
  | .retire => (s.check c).entry.any fun e => (s.entry e).registered
  | _ => false

/-- An action registers an entry whose request-head flag is left from an earlier registration. -/
def Action.registersStale (s : ConnectionScanner) : Action → Bool
  | .registerEntry e .. => !(s.entry e).registered && (s.entry e).readingRequestHead
  | _ => false

theorem Sound.perform (h : s.Sound) {action : Action} (hfresh : action.registersStale s = false) :
    (s.perform action).Sound := by
  cases action with
  | touch e now => exact h.touch e now
  | noteWriteProgress e now => exact h.noteWriteProgress e now
  | setPhase e nextPhase now => exact h.setPhase e nextPhase now
  | readRequestHead e timeoutPhase now => exact h.readRequestHead e timeoutPhase now
  | endPhaseScope e saved now => exact h.endPhaseScope e saved now
  | beginWriteScope e now => exact h.beginWriteScope e now
  | endWriteScope e now => exact h.endWriteScope e now
  | registerPeriodicCheck e c drain =>
    exact h.of_checks (changed_register s e c drain) (h.toCheckLists.registerPeriodicCheck e c drain)
  | resetCheck c => exact h.of_checks (changed_resetCheck s c) (h.toCheckLists.resetCheck c)
  | registerEntry e now scheduleThrows =>
    refine h.registerEntry now scheduleThrows fun hout => ?_
    rw [Action.registersStale, hout] at hfresh
    exact hfresh
  | unregisterEntry e => exact h.unregisterEntry e
  | destroyEntry e => exact h.destroyEntry e
  | evictOldestReusable => exact h.evictOldestReusable
  | start now scheduleThrows => exact h.start now scheduleThrows
  | stop => exact h.stop
  | retire => exact h.retire

end ConnectionScanner

end Ruvia.Web
