import Ruvia.Core.StopTokenInvariant

/-!
# `Core.StopTokenSteps` — the steps of the threads keep the invariant

One lemma for each place at which a call can stand. Each says what the frames elsewhere keep (`Kept`), what holds of the
objects behind the step (`Objects`), and what the frame says at the place to which it has gone on; `Follows` joins them.
-/

namespace Ruvia.Core.StopToken

open Library StopTokens Function

attribute [local grind =] update_apply CallbackStage.Begun CallbackStage.Linked CallbackStage.Settled
  CallbackStage.runs CallbackStage.Called IntrusiveList.members_pushFront
attribute [local grind →] CallbackStage.Begun.called

section

variable {s s' : StopTokens} {m m' : Sites} {t r c k : Nat} {frame next : Frame} {rest frames : List Frame}
  {site : Nat × Nat}

theorem Agrees.top (h : Agrees s m) (hthread : s.threads t = frame :: rest) :
    Holds s m (t, rest.length) frame ∧ Stacked s m t rest := by
  have hstack := h.frames t
  rw [hthread] at hstack
  exact hstack

/-- The invariant holds behind a step, which leaves the callbacks that will not run any more. -/
def Follows (s s' : StopTokens) : Prop := ∃ m', Agrees s' m' ∧ Forward s s'

section

variable (h : Agrees s m)
include h

theorem Agrees.stay : Follows s s := ⟨m, h, Forward.refl s⟩

/-- A step behind which the innermost call is over. -/
theorem Agrees.pop (hthread : s.threads t = frame :: rest) (hkept : Kept (t, rest.length) s m s' m')
    (hobjects : Objects s' m') (hthreads : s'.threads = update s.threads t rest) :
    Agrees s' m' ∧ Forward s s' := by
  refine ⟨⟨hobjects, fun u => ?_⟩, hkept.forward⟩
  rw [hthreads, update_apply]
  split
  · rename_i hu
    exact hu ▸ hkept.stacked (.inr (Nat.le_refl _)) (h.top hthread).2
  · rename_i hu
    exact hkept.stacked (.inl hu) (h.frames u)

/-- A step behind which a call stands on top of what stays of the stack. -/
theorem Agrees.push (hrest : Stacked s m t rest) (hkept : Kept (t, rest.length) s m s' m')
    (hobjects : Objects s' m') (hthreads : s'.threads = update s.threads t (frame :: rest))
    (hholds : Holds s' m' (t, rest.length) frame) : Agrees s' m' ∧ Forward s s' := by
  refine ⟨⟨hobjects, fun u => ?_⟩, hkept.forward⟩
  rw [hthreads, update_apply]
  split
  · rename_i hu
    exact hu ▸ ⟨hholds, hkept.stacked (.inr (Nat.le_refl _)) hrest⟩
  · rename_i hu
    exact hkept.stacked (.inl hu) (h.frames u)

/-- A step of no frame. -/
theorem Agrees.outside (hkept : ∀ site, Kept site s m s' m) (hobjects : Objects s' m)
    (hthreads : s'.threads = s.threads) : Follows s s' := by
  refine ⟨m, ⟨hobjects, fun u => ?_⟩, (hkept (0, 0)).forward⟩
  rw [hthreads]
  exact (hkept (u + 1, 0)).stacked (.inl (Nat.succ_ne_self u).symm) (h.frames u)

end

/-! ## Steps that leave the objects -/

/-- No callback is about to run on top of the thread. -/
def Quiet (s : StopTokens) (t : Nat) : Prop := ∀ k c, (s.threads t).head? ≠ some (.requestStop k (.invoke c))

attribute [local grind =] Quiet

theorem quiet_of_top (hthread : s.threads t = frame :: rest) (hframe : ∀ k c, frame ≠ .requestStop k (.invoke c)) :
    Quiet s t := by
  intro k c heq
  rw [hthread] at heq
  exact hframe k c (Option.some.inj heq)

theorem Objects.same (h : Objects s m) (hquiet : Quiet s t) : Objects (s.setThread t frames) m := by
  have htaken := h.taken
  refine { h with taken := ?_ }
  simp only [setThread]
  grind

theorem Objects.kept (h : Objects s m) : Kept site s m (s.setThread t frames) m := by
  have hcalled := h.called
  simp only [setThread]
  constructor
  all_goals grind

theorem Objects.holds (h : Objects s m) (hholds : Holds s m site frame) :
    Holds (s.setThread t frames) m site frame := by
  have hkept : Kept (site.1, site.2 + 1) s m (s.setThread t frames) m := h.kept
  refine hkept.holds ?_ hholds
  exact fun heq => Nat.succ_ne_self _ (congrArg Prod.snd heq).symm

theorem Agrees.popSame (h : Agrees s m) (hthread : s.threads t = frame :: rest) (hquiet : Quiet s t) :
    Follows s (s.setThread t rest) :=
  ⟨m, h.pop hthread h.objects.kept (h.objects.same hquiet) rfl⟩

theorem Agrees.putSame (h : Agrees s m) (hthread : s.threads t = frame :: rest) (hquiet : Quiet s t)
    (hholds : Holds s m (t, rest.length) next) : Follows s (s.setThread t (next :: rest)) :=
  ⟨m, h.push (h.top hthread).2 h.objects.kept (h.objects.same hquiet) rfl (h.objects.holds hholds)⟩

/-! ## Calls -/

theorem Agrees.callSame (h : Agrees s m) (hquiet : Quiet s t) (hholds : Holds s m (t, (s.threads t).length) next) :
    Follows s (s.setThread t (next :: s.threads t)) :=
  ⟨m, h.push (h.frames t) h.objects.kept (h.objects.same hquiet) rfl (h.objects.holds hholds)⟩

theorem quiet_of_mayCall (h : s.mayCall t = true) : Quiet s t := by
  intro k c heq
  rw [mayCall, heq] at h
  cases h

/-- **A call.** -/
theorem Agrees.call (h : Agrees s m) (hmay : s.mayCall t = true) (what : StopCall) : Follows s (s.call t what) := by
  have hquiet := quiet_of_mayCall hmay
  cases what with
  | requestStop k | reset r => exact h.callSame hquiet trivial
  | register r k =>
    obtain ⟨hstage, hsite⟩ := h.objects.unborn s.nextCallback (Nat.le_refl _)
    refine ⟨{ m with callback := update m.callback s.nextCallback (some (t, (s.threads t).length)) }, ?_⟩
    refine h.push (h.frames t) ?_ ?_ rfl ?_
    · have hcalled := h.objects.called
      simp only [StopTokens.call, setCallback, setThread]
      constructor
      all_goals grind
    · cases h.objects
      simp only [StopTokens.call, setCallback, setThread]
      constructor
      all_goals first | assumption | grind
    · exact ⟨update_self .., by simp [StopTokens.call, setCallback, setThread],
        by simp [StopTokens.call, setCallback, setThread], by simp [StopTokens.call, setCallback, setThread]⟩

/-! ## The loop of a request -/

theorem Objects.first_none (h : Objects s m) (hfirst : (s.stops k).callbacks.first = none) :
    (s.stops k).callbacks.members = [] := by
  rw [(h.lists k).first_eq] at hfirst
  exact List.head?_eq_none_iff.mp hfirst

theorem Objects.first_some (h : Objects s m) (hfirst : (s.stops k).callbacks.first = some c) :
    (s.callbacks c).stage = .listed ∧ (s.callbacks c).state = k := by
  rw [(h.lists k).first_eq] at hfirst
  exact (h.members k c).mp (List.mem_of_head? hfirst)

/-- The callback that is unlinked is no longer a member, the others are. -/
theorem Objects.members_unlink (h : Objects s m) (k c : Nat) :
    ((s.stops k).callbacks.unlink c).Sound ∧
      ∀ other, other ∈ ((s.stops k).callbacks.unlink c).members ↔ other ≠ c ∧ other ∈ (s.stops k).callbacks.members :=
  ⟨(h.lists k).unlink c, fun _ => (h.lists k).nodup.mem_erase_iff⟩

/-- The list is empty, and the request is over. -/
theorem Agrees.request_none (h : Agrees s m) (hthread : s.threads t = .requestStop k .enter :: rest)
    (hquiet : Quiet s t) (hrequested : ¬(s.stops k).requested = true) (hidle : (s.stops k).running = none)
    (hfirst : (s.stops k).callbacks.first = none) :
    Follows s (s.continueRequest t k rest ({ s.stops k with requested := true, requester := some t }, none)) := by
  have hnil := h.objects.first_none hfirst
  refine ⟨m, h.pop hthread ?_ ?_ rfl⟩
  · have hcalled := h.objects.called
    simp only [continueRequest, setStop, setThread]
    constructor
    all_goals grind [StopState.Waits]
  · cases h.objects
    simp only [continueRequest, setStop, setThread]
    constructor
    all_goals first | assumption | grind

/-- The first callback is taken off the list. -/
theorem Agrees.request_some (h : Agrees s m) (hthread : s.threads t = .requestStop k .enter :: rest)
    (hquiet : Quiet s t) (hrequested : ¬(s.stops k).requested = true) (hidle : (s.stops k).running = none)
    (hfirst : (s.stops k).callbacks.first = some c) :
    Follows s (s.continueRequest t k rest ({ s.stops k with
      requested := true
      requester := some t
      callbacks := (s.stops k).callbacks.unlink c
      running := some c }, some c)) := by
  obtain ⟨hstage, hstate⟩ := h.objects.first_some hfirst
  have hcalm := h.objects.calm k hidle
  have hlisted := h.objects.listed c hstage
  have ⟨hsound, hunlinked⟩ := h.objects.members_unlink k c
  refine ⟨{ m with
    callback := update m.callback c (some (t, rest.length))
    loop := update m.loop k (some (t, rest.length)) }, h.push (h.top hthread).2 ?_ ?_ rfl ?_⟩
  · have hcalled := h.objects.called
    simp only [continueRequest, setStop, setStage, setCallback, setThread]
    constructor
    all_goals grind [StopState.Waits]
  · cases h.objects
    simp only [continueRequest, setStop, setStage, setCallback, setThread]
    constructor
    all_goals first | assumption | grind
  · simp only [continueRequest, setStop, setStage, setCallback, setThread]
    refine ⟨⟨?_, ?_, ?_, ?_⟩, ?_, ?_⟩
    all_goals grind

theorem Agrees.request (h : Agrees s m) (hthread : s.threads t = .requestStop k .enter :: rest) :
    Follows s (s.goRequest t k rest .enter) := by
  rw [goRequest]
  have hquiet : Quiet s t := quiet_of_top hthread nofun
  by_cases hrequested : (s.stops k).requested = true
  · rw [if_pos hrequested]
    exact h.popSame hthread hquiet
  rw [if_neg hrequested]
  have hidle := h.objects.idle k (Bool.not_eq_true _ ▸ hrequested)
  rw [StopState.beginRequest, StopState.takeFirst]
  cases hfirst : (s.stops k).callbacks.first with
  | none => exact h.request_none hthread hquiet hrequested hidle hfirst
  | some c => exact h.request_some hthread hquiet hrequested hidle hfirst

/-- The state behind the run of a callback, on its way to the next one. -/
def StopState.settleRun (stop : StopState) : StopState :=
  { stop with
    running := none
    runAwaited := false
    runEpoch := if stop.runAwaited then stop.runEpoch + 1 else stop.runEpoch }

section

variable (h : Agrees s m)
include h

theorem Agrees.finish_none {c₀ : Nat} (hthread : s.threads t = .requestStop k (.finish c₀) :: rest)
    (hfirst : (s.stops k).callbacks.first = none) :
    Follows s (s.continueRequest t k rest ((s.stops k).settleRun, none)) := by
  obtain ⟨⟨hloop, hrunning, hrequester, hstate₀⟩, hreturned⟩ := (h.top hthread).1
  have hquiet : Quiet s t := quiet_of_top hthread nofun
  have hcalled := h.objects.called
  have hnil := h.objects.first_none hfirst
  simp only [continueRequest, StopState.settleRun, setStop, setThread]
  refine ⟨{ m with loop := update m.loop k none }, h.pop hthread ?_ ?_ rfl⟩
  · constructor
    all_goals grind [StopState.Waits]
  · cases h.objects
    constructor
    all_goals first | assumption | grind

theorem Agrees.finish_some {c₀ : Nat} (hthread : s.threads t = .requestStop k (.finish c₀) :: rest)
    (hfirst : (s.stops k).callbacks.first = some c) :
    Follows s (s.continueRequest t k rest ({ (s.stops k).settleRun with
      callbacks := (s.stops k).callbacks.unlink c
      running := some c }, some c)) := by
  obtain ⟨⟨hloop, hrunning, hrequester, hstate₀⟩, hreturned⟩ := (h.top hthread).1
  have hquiet : Quiet s t := quiet_of_top hthread nofun
  have hcalled := h.objects.called
  obtain ⟨hstage, hstate⟩ := h.objects.first_some hfirst
  have hlisted := h.objects.listed c hstage
  have ⟨hsound, hunlinked⟩ := h.objects.members_unlink k c
  simp only [continueRequest, StopState.settleRun, setStop, setStage, setCallback, setThread]
  refine ⟨{ m with callback := update m.callback c (some (t, rest.length)) },
    h.push (h.top hthread).2 ?_ ?_ rfl ?_⟩
  · constructor
    all_goals grind [StopState.Waits]
  · cases h.objects
    constructor
    all_goals first | assumption | grind
  · refine ⟨⟨?_, ?_, ?_, ?_⟩, ?_, ?_⟩
    all_goals grind

theorem Agrees.finish {c₀ : Nat} (hthread : s.threads t = .requestStop k (.finish c₀) :: rest) :
    Follows s (s.goRequest t k rest (.finish c₀)) := by
  rw [goRequest, StopState.finishRun, StopState.takeFirst]
  cases hfirst : (s.stops k).callbacks.first with
  | none => exact h.finish_none hthread hfirst
  | some c => exact h.finish_some hthread hfirst

/-! ## Runs of callbacks -/

theorem Agrees.invoke (hthread : s.threads t = .requestStop k (.invoke c) :: rest) :
    Follows s (s.goRequest t k rest (.invoke c)) := by
  obtain ⟨hlooping, howned, hstage⟩ := (h.top hthread).1
  obtain ⟨hinvoked, -, -, -⟩ := h.objects.taken c t hstage
  have hcalled := h.objects.called
  rw [goRequest, if_neg (Bool.not_eq_true _ ▸ hinvoked)]
  obtain ⟨hloop, hrunning, hrequester, hstate⟩ := id hlooping
  simp only [begin, setCallback, setThread]
  refine ⟨m, h.push (h.top hthread).2 ?_ ?_ rfl ?_⟩
  · constructor
    all_goals grind
  · cases h.objects
    constructor
    all_goals first | assumption | grind
  · refine ⟨⟨hloop, ?_, ?_, ?_⟩, howned, ?_⟩
    all_goals grind

theorem Agrees.leaveRequest (hthread : s.threads t = .requestStop k (.calling c) :: rest) :
    Follows s ((s.setStage c .returned).setThread t (.requestStop k (.finish c) :: rest)) := by
  obtain ⟨hlooping, howned, hstage⟩ := (h.top hthread).1
  have hcalled := h.objects.called
  have hquiet : Quiet s t := quiet_of_top hthread nofun
  obtain ⟨hloop, hrunning, hrequester, hstate⟩ := id hlooping
  simp only [setStage, setCallback, setThread]
  refine ⟨m, h.push (h.top hthread).2 ?_ ?_ rfl ?_⟩
  · constructor
    all_goals grind
  · cases h.objects
    constructor
    all_goals first | assumption | grind
  · refine ⟨⟨hloop, ?_, ?_, ?_⟩, ?_⟩
    all_goals grind

theorem Agrees.leaveRegister (hthread : s.threads t = .register r c .calling :: rest) :
    Follows s ((s.setStage c .returned).setThread t rest) := by
  obtain ⟨howned, hstage⟩ := (h.top hthread).1
  have hcalled := h.objects.called
  have hquiet : Quiet s t := quiet_of_top hthread nofun
  simp only [setStage, setCallback, setThread]
  refine ⟨m, h.pop hthread ?_ ?_ rfl⟩
  · constructor
    all_goals grind
  · cases h.objects
    constructor
    all_goals first | assumption | grind

theorem Agrees.leave (hstep : s.leave t = some s') : Follows s s' := by
  rw [StopTokens.leave] at hstep
  split at hstep
  · rename_i k c rest hthread
    obtain rfl := Option.some.inj hstep
    exact h.leaveRequest hthread
  · rename_i r c rest hthread
    obtain rfl := Option.some.inj hstep
    exact h.leaveRegister hthread
  · cases hstep

/-! ## Registration -/

theorem Agrees.possible (hthread : s.threads t = .register r c .possible :: rest) :
    Follows s (s.goRegister t r c rest .possible) := by
  have hquiet : Quiet s t := quiet_of_top hthread nofun
  have hentering := (h.top hthread).1
  rw [goRegister]
  split
  · exact h.putSame hthread hquiet hentering
  · obtain ⟨howned, hbelongs, hstage, hinvoked⟩ := id hentering
    have hcalled := h.objects.called
    simp only [setStage, setCallback, setThread]
    refine ⟨m, h.pop hthread ?_ ?_ rfl⟩
    · constructor
      all_goals grind
    · cases h.objects
      constructor
      all_goals first | assumption | grind

theorem Agrees.requested (hthread : s.threads t = .register r c .requested :: rest) :
    Follows s (s.goRegister t r c rest .requested) := by
  have hquiet : Quiet s t := quiet_of_top hthread nofun
  have hentering := (h.top hthread).1
  rw [goRegister]
  split
  · rename_i hrequested
    obtain ⟨howned, hbelongs, hstage, hinvoked⟩ := id hentering
    have hcalled := h.objects.called
    simp only [begin, setCallback, setThread]
    refine ⟨m, h.push (h.top hthread).2 ?_ ?_ rfl ?_⟩
    · constructor
      all_goals grind
    · cases h.objects
      constructor
      all_goals first | assumption | grind
    · exact ⟨howned, by grind⟩
  · exact h.putSame hthread hquiet hentering

theorem Agrees.terminate : Follows s { s with terminated := true } := by
  have hcalled := h.objects.called
  refine h.outside (fun site => ?_) ?_ rfl
  · constructor
    all_goals grind
  · cases h.objects
    constructor
    all_goals assumption

theorem Agrees.retire (k : Nat) : Follows s (s.setStop k { s.stops k with source := false }) := by
  have hcalled := h.objects.called
  refine h.outside (fun site => ?_) ?_ rfl
  · simp only [setStop]
    constructor
    all_goals grind [StopState.Waits]
  · cases h.objects
    simp only [setStop]
    constructor
    all_goals first | assumption | grind

theorem Agrees.claim (hthread : s.threads t = .register r c .claim :: rest) :
    Follows s (s.goRegister t r c rest .claim) := by
  obtain ⟨howned, hbelongs, hstage, hinvoked⟩ := (h.top hthread).1
  have hcalled := h.objects.called
  rw [goRegister]
  split
  · rename_i hidle
    have hfree := h.objects.free r (.inl hidle)
    simp only [setRegistration, setStage, setCallback, setThread]
    refine ⟨{ m with registration := update m.registration r (some (t, rest.length)) },
      h.push (h.top hthread).2 ?_ ?_ rfl ?_⟩
    · constructor
      all_goals grind
    · cases h.objects
      constructor
      all_goals first | assumption | grind
    · refine ⟨⟨howned, ?_, ?_, ?_, ?_⟩, ?_⟩
      all_goals grind
  · exact h.terminate

theorem Agrees.link (hthread : s.threads t = .register r c .link :: rest) :
    Follows s (s.goRegister t r c rest .link) := by
  have hquiet : Quiet s t := quiet_of_top hthread nofun
  obtain ⟨hregistering, hinvoked⟩ := (h.top hthread).1
  rw [goRegister, goLink]
  split
  · rename_i hrequested
    exact h.putSame hthread hquiet ⟨hregistering, hinvoked, fun _ => hrequested⟩
  rename_i hrequested
  obtain ⟨howned, hheld, hbelongs, hengaged, hphase⟩ := id hregistering
  rcases hphase with ⟨hphase, hstage⟩ | ⟨hphase, hstage⟩
  · have hcalled := h.objects.called
    have hnot : c ∉ (s.stops (s.callbacks c).state).callbacks.members := by
      rw [h.objects.members, hstage]
      rintro ⟨heq, -⟩
      cases heq
    have hsound := (h.objects.lists (s.callbacks c).state).pushFront hnot
    rw [hphase]
    simp only [setRegistration, setStop, setStage, setCallback, setThread]
    refine ⟨{ m with
      callback := update m.callback c none
      registration := update m.registration r none }, h.pop hthread ?_ ?_ rfl⟩
    · constructor
      all_goals grind [StopState.Waits]
    · cases h.objects
      constructor
      all_goals first | assumption | grind
  · rw [hphase]
    refine h.putSame hthread hquiet ⟨hregistering, hinvoked, fun heq => ?_⟩
    rw [hstage] at heq
    cases heq

end

/-- A callback whose registration is under way is not on the list, and does not run. -/
theorem Objects.not_linked (h : Objects s m) (hnot : ¬(s.callbacks c).stage.Linked) :
    (s.stops k).callbacks.linked c = false ∧ (s.stops k).running ≠ some c := by
  constructor
  · rw [← Bool.not_eq_true, (h.lists k).linked_iff, h.members]
    exact fun hmem => hnot (.inl hmem.1)
  · exact fun hrunning => hnot (.inr (h.active k c hrunning).2)

theorem setStop_self (s : StopTokens) (k : Nat) : s.setStop k (s.stops k) = s := by
  rw [setStop, update_eq_self]

theorem Registering.not_linked (h : Registering s m site r c) : ¬(s.callbacks c).stage.Linked := by
  rintro (hlisted | hbegun)
  · rcases h.stage with ⟨-, hstage⟩ | ⟨-, hstage⟩
    all_goals
      rw [hstage] at hlisted
      cases hlisted
  · rcases h.stage with ⟨-, hstage⟩ | ⟨-, hstage⟩
    all_goals
      rw [hstage] at hbegun
      exact hbegun

theorem Agrees.unlink (h : Agrees s m) (hthread : s.threads t = .register r c .unlink :: rest) :
    Follows s (s.goRegister t r c rest .unlink) := by
  have hquiet : Quiet s t := quiet_of_top hthread nofun
  obtain ⟨hregistering, hinvoked, hrequested⟩ := (h.top hthread).1
  obtain ⟨hlinked, hrunning⟩ := h.objects.not_linked (k := (s.callbacks c).state) hregistering.not_linked
  rw [goRegister, StopState.unlink, if_neg (Bool.not_eq_true _ ▸ hlinked), if_pos hrunning, afterUnlink, setStop_self]
  exact h.putSame hthread hquiet ⟨hregistering, hinvoked, hrequested⟩

theorem Agrees.take (h : Agrees s m) (hthread : s.threads t = .register r c .take :: rest) :
    Follows s (s.goRegister t r c rest .take) := by
  obtain ⟨hregistering, hinvoked, hrequested⟩ := (h.top hthread).1
  obtain ⟨howned, hheld, hbelongs, hengaged, hphase⟩ := id hregistering
  have hcalled := h.objects.called
  have hnot := hregistering.not_linked
  rw [goRegister]
  simp only [setCallback, setThread]
  refine ⟨m, h.push (h.top hthread).2 ?_ ?_ rfl ?_⟩
  · constructor
    all_goals grind
  · cases h.objects
    constructor
    all_goals first | assumption | grind
  · refine ⟨⟨howned, hheld, ?_, hengaged, ?_⟩, ?_, ?_⟩
    all_goals grind

theorem Agrees.exchange {hasValue : Bool} (h : Agrees s m)
    (hthread : s.threads t = .register r c (.exchange hasValue) :: rest) :
    Follows s (s.goRegister t r c rest (.exchange hasValue)) := by
  obtain ⟨hregistering, hvalue, hrequested⟩ := (h.top hthread).1
  obtain ⟨howned, hheld, hbelongs, hengaged, hphase⟩ := id hregistering
  have hcalled := h.objects.called
  rw [goRegister]
  split
  · rename_i hpending
    simp only [setRegistration, begin, setCallback, setThread]
    refine ⟨{ m with registration := update m.registration r none }, h.push (h.top hthread).2 ?_ ?_ rfl ?_⟩
    · constructor
      all_goals grind
    · cases h.objects
      constructor
      all_goals first | assumption | grind
    · exact ⟨howned, by grind⟩
  · rename_i hpending
    simp only [setRegistration, setThread]
    refine ⟨{ m with registration := update m.registration r none }, h.pop hthread ?_ ?_ rfl⟩
    · constructor
      all_goals grind
    · cases h.objects
      constructor
      all_goals first | assumption | grind

/-! ## Reset -/

theorem Agrees.test (h : Agrees s m) {phase : RegistrationPhase}
    (hthread : s.threads t = .reset r (.test phase) :: rest) : Follows s (s.goTest t r rest phase) := by
  have hquiet : Quiet s t := quiet_of_top hthread nofun
  have hcalled := h.objects.called
  have hload : ∀ other, Follows s (s.setThread t (.reset r (.test other) :: rest)) :=
    fun other => h.putSame hthread hquiet trivial
  cases phase with
  | idle | resetPending | resetting => exact h.popSame hthread hquiet
  | registering =>
    rw [goTest]
    cases hphase : (s.registrations r).phase with
    | registering =>
      obtain ⟨c, u, hengaged, hbelongs, hstage⟩ := h.objects.registering r hphase
      rw [hengaged]
      simp only [setRegistration, setStage, setCallback, setThread]
      refine ⟨m, h.pop hthread ?_ ?_ rfl⟩
      · constructor
        all_goals grind
      · cases h.objects
        constructor
        all_goals first | assumption | grind
    | idle | registered | resetPending | resetting => exact hload _
  | registered =>
    rw [goTest]
    cases hphase : (s.registrations r).phase with
    | registered =>
      obtain ⟨c, hengaged, hbelongs, hlinked⟩ := h.objects.registered r hphase
      have hfree := h.objects.free r (.inr hphase)
      simp only [setRegistration, setThread]
      refine ⟨{ m with registration := update m.registration r (some (t, rest.length)) },
        h.push (h.top hthread).2 ?_ ?_ rfl ?_⟩
      · constructor
        all_goals grind
      · cases h.objects
        constructor
        all_goals first | assumption | grind
      · refine ⟨c, ⟨?_, ?_, ?_, hbelongs⟩, hlinked⟩
        all_goals grind
    | idle | registering | resetPending | resetting => exact hload _

/-- A callback that has been taken off the list does not run any more, if it does not run, or runs on this thread. -/
theorem Objects.settled (h : Objects s m) (hquiet : Quiet s t) (hbegun : (s.callbacks c).stage.Begun)
    (hover : (s.stops (s.callbacks c).state).running ≠ some c ∨
      (s.stops (s.callbacks c).state).requester = some t) : (s.callbacks c).stage.Settled t := by
  cases hstage : (s.callbacks c).stage with
  | taken u =>
    obtain ⟨-, hrunning, hrequester, htop⟩ := h.taken c u hstage
    rcases hover with hnot | hthis
    · exact absurd hrunning hnot
    · obtain rfl : u = t := Option.some.inj (hrequester.symm.trans hthis)
      exact absurd htop (hquiet _ _)
  | running u direct =>
    rw [hstage] at hbegun
    obtain rfl : direct = false := hbegun
    obtain ⟨hrunning, hrequester⟩ := h.running c u hstage
    rcases hover with hnot | hthis
    · exact absurd hrunning hnot
    · obtain rfl : u = t := Option.some.inj (hrequester.symm.trans hthis)
      exact .inr (.inr rfl)
  | returned => exact .inr (.inl rfl)
  | unborn | entering u | registering u | listed | removed | ignored =>
    rw [hstage] at hbegun
    exact hbegun.elim

section

variable (h : Agrees s m)
include h

/-- The wait for a run that is under way on another thread. -/
theorem Agrees.await (hthread : s.threads t = frame :: rest) (hquiet : Quiet s t)
    (hresetting : Resetting s m (t, rest.length) r c) (hbegun : (s.callbacks c).stage.Begun)
    (hrunning : (s.stops (s.callbacks c).state).running = some c)
    (hother : (s.stops (s.callbacks c).state).requester ≠ some t) :
    Follows s (s.afterClear t r c rest ({ s.stops (s.callbacks c).state with runAwaited := true },
      .waits (s.stops (s.callbacks c).state).runEpoch)) := by
  obtain ⟨hheld, hphase, hengaged, hbelongs⟩ := id hresetting
  have hcalled := h.objects.called
  simp only [afterClear, setStop, setThread]
  refine ⟨m, h.push (h.top hthread).2 ?_ ?_ rfl ?_⟩
  · constructor
    all_goals grind [StopState.Waits]
  · cases h.objects
    constructor
    all_goals first | assumption | grind
  · refine ⟨⟨hheld, hphase, hengaged, hbelongs⟩, hbegun, ?_, ?_⟩
    all_goals
      dsimp only
      rw [update_self]
    · exact hother
    · exact ⟨Nat.le_refl _, .inr ⟨hrunning, rfl⟩⟩

theorem Agrees.clear (hthread : s.threads t = .reset r .clear :: rest) : Follows s (s.goReset t r rest .clear) := by
  have hquiet : Quiet s t := quiet_of_top hthread nofun
  obtain ⟨c, hresetting, hstage⟩ := (h.top hthread).1
  obtain ⟨hheld, hphase, hengaged, hbelongs⟩ := id hresetting
  have hcalled := h.objects.called
  rw [goReset, hengaged]
  dsimp only
  rw [StopState.unlink]
  split
  · rename_i hlinked
    have hmember := (h.objects.lists _).linked_iff.mp hlinked
    have hlisted := ((h.objects.members _ _).mp hmember).1
    have howner := h.objects.listed c hlisted
    have ⟨hsound, hunlinked⟩ := h.objects.members_unlink (s.callbacks c).state c
    simp only [afterClear, setStop, setStage, setCallback, setThread]
    refine ⟨m, h.push (h.top hthread).2 ?_ ?_ rfl ?_⟩
    · constructor
      all_goals grind [StopState.Waits]
    · cases h.objects
      constructor
      all_goals first | assumption | grind
    · refine ⟨c, rfl, ⟨hheld, hphase, hengaged, ?_⟩, .inl ?_⟩
      all_goals grind
  rename_i hlinked
  -- the callback has been taken off the list by a request
  have hbegun : (s.callbacks c).stage.Begun := by
    refine hstage.resolve_left fun hlisted => hlinked ?_
    exact (h.objects.lists _).linked_iff.mpr ((h.objects.members _ _).mpr ⟨hlisted, rfl⟩)
  split
  · rename_i hrunning
    rw [afterClear, setStop_self]
    exact h.putSame hthread hquiet ⟨c, rfl, hresetting, h.objects.settled hquiet hbegun (.inl hrunning)⟩
  rename_i hrunning
  split
  · rename_i hrequester
    rw [afterClear, setStop_self]
    exact h.putSame hthread hquiet ⟨c, rfl, hresetting, h.objects.settled hquiet hbegun (.inr hrequester)⟩
  · rename_i hother
    exact h.await hthread hquiet hresetting hbegun (not_not.mp hrunning) hother

theorem Agrees.again (hthread : s.threads t = .reset r (.again c) :: rest) :
    Follows s (s.goReset t r rest (.again c)) := by
  have hquiet : Quiet s t := quiet_of_top hthread nofun
  obtain ⟨hresetting, hbegun, hother⟩ := (h.top hthread).1
  rw [goReset, StopState.awaitRun]
  split
  · rename_i hrunning
    exact h.await hthread hquiet hresetting hbegun hrunning hother
  · rename_i hrunning
    rw [afterClear, setStop_self]
    exact h.putSame hthread hquiet ⟨c, rfl, hresetting, h.objects.settled hquiet hbegun (.inl hrunning)⟩

theorem Agrees.store {callback : Option Nat}
    (hthread : s.threads t = .reset r (.store callback) :: rest) :
    Follows s (s.goReset t r rest (.store callback)) := by
  obtain ⟨c, rfl, ⟨hheld, hphase, hengaged, hbelongs⟩, hsettled⟩ := (h.top hthread).1
  have hcalled := h.objects.called
  rw [goReset]
  simp only [setRegistration, setThread]
  refine ⟨{ m with registration := update m.registration r none }, h.pop hthread ?_ ?_ rfl⟩
  · constructor
    all_goals grind
  · cases h.objects
    constructor
    all_goals first | assumption | grind

end

/-! ## Every step -/

theorem Agrees.go (h : Agrees s m) (hstep : s.go t = some s') : Follows s s' := by
  rw [StopTokens.go] at hstep
  split at hstep
  · cases hstep
  · rename_i k point rest hthread
    obtain rfl := Option.some.inj hstep
    cases point with
    | enter => exact h.request hthread
    | invoke c => exact h.invoke hthread
    | calling c => exact h.stay
    | finish c => exact h.finish hthread
  · rename_i r c point rest hthread
    obtain rfl := Option.some.inj hstep
    cases point with
    | possible => exact h.possible hthread
    | requested => exact h.requested hthread
    | claim => exact h.claim hthread
    | link => exact h.link hthread
    | unlink => exact h.unlink hthread
    | wait epoch | again => exact (h.top hthread).1.elim
    | take => exact h.take hthread
    | exchange hasValue => exact h.exchange hthread
    | calling => exact h.stay
  · rename_i r point rest hthread
    obtain rfl := Option.some.inj hstep
    cases point with
    | load => exact h.putSame hthread (quiet_of_top hthread nofun) trivial
    | test phase => exact h.test hthread
    | clear => exact h.clear hthread
    | wait c epoch =>
      rw [goReset]
      split
      · exact h.stay
      · obtain ⟨hresetting, hbegun, hother, -⟩ := (h.top hthread).1
        exact h.putSame hthread (quiet_of_top hthread nofun) ⟨hresetting, hbegun, hother⟩
    | again c => exact h.again hthread
    | store callback => exact h.store hthread

/-- **Every step keeps the invariant.** -/
theorem Agrees.step {action : StopAction} (h : Agrees s m) (hstep : s.step action = some s') : Follows s s' := by
  cases action with
  | call t what =>
    rw [StopTokens.step] at hstep
    split_ifs at hstep with hmay
    obtain rfl := Option.some.inj hstep
    exact h.call hmay.2 what
  | go t =>
    rw [StopTokens.step] at hstep
    split_ifs at hstep
    exact h.go hstep
  | leave t =>
    rw [StopTokens.step] at hstep
    split_ifs at hstep
    exact h.leave hstep
  | retire k =>
    rw [StopTokens.step] at hstep
    split_ifs at hstep
    obtain rfl := Option.some.inj hstep
    exact h.retire k

theorem agrees_init : Agrees {} {} := by
  refine ⟨?_, fun _ => trivial⟩
  constructor
  case lists => exact fun _ => IntrusiveList.sound_empty
  all_goals simp [IntrusiveList.empty, CallbackStage.runs, CallbackStage.Called]

/-- **The invariant holds in every reachable state.** -/
theorem agrees_of_reachable (h : stopMachine.Reachable s) : ∃ m, Agrees s m := by
  refine StateMachine.Reachable.invariant (P := fun s => ∃ m, Agrees s m) ?_ ?_ h
  · rintro s rfl
    exact ⟨{}, agrees_init⟩
  · rintro s action s' ⟨m, hs⟩ hstep
    obtain ⟨m', hs', -⟩ := hs.step hstep
    exact ⟨m', hs'⟩

end

end Ruvia.Core.StopToken
