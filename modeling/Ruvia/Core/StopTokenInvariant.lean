import Ruvia.Core.StopToken

/-!
# `Core.StopTokenInvariant` — what holds of the stop states, the registrations and the frames

A frame stands at a site: its thread and its depth on the stack. Each object that a frame has to itself — the callback
that it registers or runs, the registration under way, the loop of a request — names that site (`Sites`), so that a step
of one frame leaves what the others say of theirs (`Kept`).
-/

namespace Ruvia.Core.StopToken

open Library

/-- The frames that have callbacks, registrations and loops to themselves. -/
structure Sites where
  callback : Nat → Option (Nat × Nat) := fun _ => none
  registration : Nat → Option (Nat × Nat) := fun _ => none
  loop : Nat → Option (Nat × Nat) := fun _ => none

/-- The callback has been taken off the list. -/
def CallbackStage.Begun : CallbackStage → Prop
  | .taken _ => True
  | .running _ direct => direct = false
  | .returned => True
  | _ => False

/-- The callback has been on the list, and its registration has not been reset. -/
def CallbackStage.Linked (stage : CallbackStage) : Prop := stage = .listed ∨ stage.Begun

/-- The callback will not run any more, but for a run on this very thread. -/
def CallbackStage.Settled (thread : Nat) (stage : CallbackStage) : Prop :=
  stage = .removed ∨ stage = .returned ∨ stage = .running thread false

/-- How often a callback at this stage has run. -/
def CallbackStage.runs : CallbackStage → Nat
  | .running _ _ => 1
  | .returned => 1
  | _ => 0

/-- The callback's run has begun. -/
def CallbackStage.Called : CallbackStage → Prop
  | .taken _ => True
  | .running _ _ => True
  | .returned => True
  | _ => False

theorem CallbackStage.Begun.called {stage : CallbackStage} (h : stage.Begun) : stage.Called := by
  cases stage with
  | taken thread | running thread direct | returned => trivial
  | unborn | entering thread | registering thread | listed | removed | ignored => exact h

/-- A wait for the run of a callback: it has ended since, or goes on and its end will be noticed. -/
def StopState.Waits (stop : StopState) (callback epoch : Nat) : Prop :=
  epoch ≤ stop.runEpoch ∧ (epoch < stop.runEpoch ∨ (stop.running = some callback ∧ stop.runAwaited = true))

section

variable (s : StopTokens) (m : Sites) (site : Nat × Nat)

structure Entering (registration callback : Nat) : Prop where
  owned : m.callback callback = some site
  belongs : (s.callbacks callback).registration = registration
  stage : (s.callbacks callback).stage = .entering site.1
  invoked : (s.callbacks callback).invoked = false

structure Registering (registration callback : Nat) : Prop where
  owned : m.callback callback = some site
  held : m.registration registration = some site
  belongs : (s.callbacks callback).registration = registration
  engaged : (s.registrations registration).callback = some callback
  stage : ((s.registrations registration).phase = .registering ∧
      (s.callbacks callback).stage = .registering site.1) ∨
    ((s.registrations registration).phase = .resetPending ∧ (s.callbacks callback).stage = .removed)

structure Resetting (registration callback : Nat) : Prop where
  held : m.registration registration = some site
  phase : (s.registrations registration).phase = .resetting
  engaged : (s.registrations registration).callback = some callback
  belongs : (s.callbacks callback).registration = registration

structure Looping (state callback : Nat) : Prop where
  loop : m.loop state = some site
  running : (s.stops state).running = some callback
  requester : (s.stops state).requester = some site.1
  state : (s.callbacks callback).state = state

/-- What a frame at a site says. -/
def Holds : Frame → Prop
  | .requestStop _ .enter => True
  | .requestStop k (.invoke c) =>
    Looping s m site k c ∧ m.callback c = some site ∧ (s.callbacks c).stage = .taken site.1
  | .requestStop k (.calling c) =>
    Looping s m site k c ∧ m.callback c = some site ∧ (s.callbacks c).stage = .running site.1 false
  | .requestStop k (.finish c) => Looping s m site k c ∧ (s.callbacks c).stage = .returned
  | .register r c .possible => Entering s m site r c
  | .register r c .requested => Entering s m site r c
  | .register r c .claim => Entering s m site r c
  | .register r c .link => Registering s m site r c ∧ (s.callbacks c).invoked = false
  | .register r c .unlink =>
    Registering s m site r c ∧ (s.callbacks c).invoked = false ∧
      ((s.callbacks c).stage = .registering site.1 → (s.stops (s.callbacks c).state).requested = true)
  | .register _ _ (.wait _) => False
  | .register _ _ .again => False
  | .register r c .take =>
    Registering s m site r c ∧ (s.callbacks c).invoked = false ∧
      ((s.callbacks c).stage = .registering site.1 → (s.stops (s.callbacks c).state).requested = true)
  | .register r c (.exchange hasValue) =>
    Registering s m site r c ∧ hasValue = true ∧
      ((s.callbacks c).stage = .registering site.1 → (s.stops (s.callbacks c).state).requested = true)
  | .register _ c .calling => m.callback c = some site ∧ (s.callbacks c).stage = .running site.1 true
  | .reset _ .load => True
  | .reset _ (.test _) => True
  | .reset r .clear => ∃ c, Resetting s m site r c ∧ (s.callbacks c).stage.Linked
  | .reset r (.wait c epoch) =>
    Resetting s m site r c ∧ (s.callbacks c).stage.Begun ∧
      (s.stops (s.callbacks c).state).requester ≠ some site.1 ∧ (s.stops (s.callbacks c).state).Waits c epoch
  | .reset r (.again c) =>
    Resetting s m site r c ∧ (s.callbacks c).stage.Begun ∧
      (s.stops (s.callbacks c).state).requester ≠ some site.1
  | .reset r (.store callback) =>
    ∃ c, callback = some c ∧ Resetting s m site r c ∧ (s.callbacks c).stage.Settled site.1

/-- What the frames of a thread say. -/
def Stacked (thread : Nat) : List Frame → Prop
  | [] => True
  | frame :: rest => Holds s m (thread, rest.length) frame ∧ Stacked thread rest

/-- What holds of the objects. -/
structure Objects : Prop where
  fault : s.fault = false
  lists : ∀ k, (s.stops k).callbacks.Sound
  members : ∀ k c, c ∈ (s.stops k).callbacks.members ↔
    (s.callbacks c).stage = .listed ∧ (s.callbacks c).state = k
  unborn : ∀ c, s.nextCallback ≤ c → (s.callbacks c).stage = .unborn ∧ m.callback c = none
  runs : ∀ c, (s.callbacks c).runs = (s.callbacks c).stage.runs
  called : ∀ c, (s.callbacks c).stage.Called → (s.stops (s.callbacks c).state).requested = true
  active : ∀ k c, (s.stops k).running = some c → (s.callbacks c).state = k ∧ (s.callbacks c).stage.Begun
  listed : ∀ c, (s.callbacks c).stage = .listed →
    m.callback c = none ∧ (s.callbacks c).invoked = false ∧
      (s.registrations (s.callbacks c).registration).callback = some c ∧
      ((s.registrations (s.callbacks c).registration).phase = .registered ∨
        (s.registrations (s.callbacks c).registration).phase = .resetting)
  taken : ∀ c t, (s.callbacks c).stage = .taken t →
    (s.callbacks c).invoked = false ∧ (s.stops (s.callbacks c).state).running = some c ∧
      (s.stops (s.callbacks c).state).requester = some t ∧
      (s.threads t).head? = some (.requestStop (s.callbacks c).state (.invoke c))
  running : ∀ c t, (s.callbacks c).stage = .running t false →
    (s.stops (s.callbacks c).state).running = some c ∧ (s.stops (s.callbacks c).state).requester = some t
  calm : ∀ k, (s.stops k).running = none → m.loop k = none
  idle : ∀ k, (s.stops k).requested = false → (s.stops k).running = none
  emptied : ∀ k, (s.stops k).requested = true → (s.stops k).running = none → (s.stops k).callbacks.members = []
  free : ∀ r, (s.registrations r).phase = .idle ∨ (s.registrations r).phase = .registered → m.registration r = none
  registered : ∀ r, (s.registrations r).phase = .registered →
    ∃ c, (s.registrations r).callback = some c ∧ (s.callbacks c).registration = r ∧ (s.callbacks c).stage.Linked
  registering : ∀ r, (s.registrations r).phase = .registering →
    ∃ c t, (s.registrations r).callback = some c ∧ (s.callbacks c).registration = r ∧
      (s.callbacks c).stage = .registering t

/-- **The invariant.** -/
structure Agrees : Prop where
  objects : Objects s m
  frames : ∀ t, Stacked s m t (s.threads t)

end

/-! ## What a step leaves to the other frames -/

/-- A step of the frame at a site leaves what the frames elsewhere rely on. -/
structure Kept (site : Nat × Nat) (s : StopTokens) (m : Sites) (s' : StopTokens) (m' : Sites) : Prop where
  loop : ∀ k x, x ≠ site → m.loop k = some x →
    m'.loop k = some x ∧ (s'.stops k).running = (s.stops k).running
  callback : ∀ c x, x ≠ site → m.callback c = some x → m'.callback c = some x
  identity : ∀ c, (s.callbacks c).stage ≠ .unborn →
    (s'.callbacks c).state = (s.callbacks c).state ∧ (s'.callbacks c).registration = (s.callbacks c).registration
  owned : ∀ c x, x ≠ site → m.callback c = some x → (s'.callbacks c).invoked = (s.callbacks c).invoked ∧
    ((s'.callbacks c).stage = (s.callbacks c).stage ∨
      (∃ u, (s.callbacks c).stage = .registering u ∧ (s'.callbacks c).stage = .removed))
  held : ∀ r x, x ≠ site → m.registration r = some x → m'.registration r = some x ∧
    (s'.registrations r).callback = (s.registrations r).callback ∧
    (((s'.registrations r).phase = (s.registrations r).phase ∧ ∀ c, (s.registrations r).callback = some c →
        (s.callbacks c).registration = r → m.callback c = some x → (s'.callbacks c).stage = (s.callbacks c).stage) ∨
      ((s.registrations r).phase = .registering ∧ (s'.registrations r).phase = .resetPending ∧
        ∀ c, (s.registrations r).callback = some c → (s'.callbacks c).stage = .removed))
  begun : ∀ c, (s.callbacks c).stage.Begun → (s'.callbacks c).stage.Begun
  linked : ∀ r x c, x ≠ site → m.registration r = some x → (s.callbacks c).registration = r →
    (s.callbacks c).stage.Linked → (s'.callbacks c).stage.Linked
  settled : ∀ t c, (s.callbacks c).stage.Settled t → (s'.callbacks c).stage.Settled t
  returned : ∀ c, (s.callbacks c).stage = .returned → (s'.callbacks c).stage = .returned
  gone : ∀ c, (s.callbacks c).stage = .removed ∨ (s.callbacks c).stage = .ignored →
    (s'.callbacks c).stage = (s.callbacks c).stage
  requested : ∀ k, (s.stops k).requested = true →
    (s'.stops k).requested = true ∧ (s'.stops k).requester = (s.stops k).requester
  waiting : ∀ k c epoch, (s.stops k).Waits c epoch → (s'.stops k).Waits c epoch
  called : ∀ c, (s.callbacks c).stage.Begun → (s.stops (s.callbacks c).state).requested = true

/-- What a step leaves of the callbacks that will not run any more. -/
structure Forward (s s' : StopTokens) : Prop where
  begun : ∀ c, (s.callbacks c).stage.Begun → (s'.callbacks c).stage.Begun
  settled : ∀ t c, (s.callbacks c).stage.Settled t → (s'.callbacks c).stage.Settled t
  gone : ∀ c, (s.callbacks c).stage = .removed ∨ (s.callbacks c).stage = .ignored →
    (s'.callbacks c).stage = (s.callbacks c).stage

theorem Forward.refl (s : StopTokens) : Forward s s := ⟨fun _ => id, fun _ _ => id, fun _ _ => rfl⟩

section

variable {s s' : StopTokens} {m m' : Sites} {site x : Nat × Nat} {registration callback state thread : Nat}
  {frame : Frame} {frames : List Frame}

variable {stage : CallbackStage}

theorem CallbackStage.Begun.ne_unborn (h : stage.Begun) : stage ≠ .unborn := by
  rintro rfl
  exact h

theorem CallbackStage.Linked.ne_unborn (h : stage.Linked) : stage ≠ .unborn := by
  rintro rfl
  rcases h with h | h
  · cases h
  · exact h

theorem CallbackStage.Settled.ne_unborn (h : stage.Settled thread) : stage ≠ .unborn := by
  rintro rfl
  rcases h with h | h | h <;> cases h

section

variable (h : Kept site s m s' m')
include h

theorem Kept.forward : Forward s s' := ⟨h.begun, h.settled, h.gone⟩

theorem Kept.looping (hx : x ≠ site) (hbegun : (s.callbacks callback).stage.Begun)
    (hholds : Looping s m x state callback) : Looping s' m' x state callback := by
  obtain ⟨hloop, hrunning⟩ := h.loop state x hx hholds.loop
  have hrequested := h.called callback hbegun
  rw [hholds.state] at hrequested
  exact ⟨hloop, hrunning.trans hholds.running, (h.requested state hrequested).2.trans hholds.requester,
    (h.identity callback hbegun.ne_unborn).1.trans hholds.state⟩

theorem Kept.entering (hx : x ≠ site) (hholds : Entering s m x registration callback) :
    Entering s' m' x registration callback := by
  have hborn : (s.callbacks callback).stage ≠ .unborn := by
    rw [hholds.stage]
    exact CallbackStage.noConfusion
  obtain ⟨hinvoked, hstage⟩ := h.owned callback x hx hholds.owned
  refine ⟨h.callback _ _ hx hholds.owned, (h.identity _ hborn).2.trans hholds.belongs, ?_,
    hinvoked.trans hholds.invoked⟩
  rcases hstage with hstage | ⟨u, hstage, -⟩
  · exact hstage.trans hholds.stage
  · rw [hholds.stage] at hstage
    cases hstage

end

theorem Registering.born (h : Registering s m x registration callback) : (s.callbacks callback).stage ≠ .unborn := by
  rcases h.stage with ⟨-, hstage⟩ | ⟨-, hstage⟩ <;> rw [hstage] <;> exact CallbackStage.noConfusion

section

variable (h : Kept site s m s' m')
include h

theorem Kept.registering (hx : x ≠ site)
    (hholds : Registering s m x registration callback) : Registering s' m' x registration callback := by
  obtain ⟨hheld, hcallback, hphase⟩ := h.held registration x hx hholds.held
  refine ⟨h.callback _ _ hx hholds.owned, hheld, (h.identity _ hholds.born).2.trans hholds.belongs,
    hcallback.trans hholds.engaged, ?_⟩
  rcases hphase with ⟨hphase, hstage⟩ | ⟨-, hphase, hremoved⟩
  · rw [hphase, hstage _ hholds.engaged hholds.belongs hholds.owned]
    exact hholds.stage
  · exact .inr ⟨hphase, hremoved _ hholds.engaged⟩

/-- What a registration that found the stop requested relies on. -/
theorem Kept.suspects (hx : x ≠ site) (hholds : Registering s m x registration callback)
    (hrequested : (s.callbacks callback).stage = .registering x.1 →
      (s.stops (s.callbacks callback).state).requested = true)
    (hstage : (s'.callbacks callback).stage = .registering x.1) :
    (s'.stops (s'.callbacks callback).state).requested = true := by
  rw [(h.identity _ hholds.born).1]
  refine (h.requested _ (hrequested ?_)).1
  rcases (h.owned _ _ hx hholds.owned).2 with heq | ⟨u, -, heq⟩
  · exact heq ▸ hstage
  · rw [heq] at hstage
    cases hstage

theorem Kept.resetting (hx : x ≠ site) (hborn : (s.callbacks callback).stage ≠ .unborn)
    (hholds : Resetting s m x registration callback) : Resetting s' m' x registration callback := by
  obtain ⟨hheld, hcallback, hphase⟩ := h.held registration x hx hholds.held
  refine ⟨hheld, ?_, hcallback.trans hholds.engaged, (h.identity _ hborn).2.trans hholds.belongs⟩
  rcases hphase with ⟨hphase, -⟩ | ⟨hphase, -, -⟩
  · exact hphase.trans hholds.phase
  · rw [hholds.phase] at hphase
    cases hphase

/-- **What a frame says stays true** while another one goes on. -/
theorem Kept.holds (hx : x ≠ site) (hholds : Holds s m x frame) : Holds s' m' x frame := by
  have hsame : ∀ {c stage}, m.callback c = some x → (s.callbacks c).stage = stage →
      (∀ u, stage ≠ .registering u) → (s'.callbacks c).stage = stage := by
    rintro c stage hsite rfl hnot
    rcases (h.owned _ _ hx hsite).2 with heq | ⟨u, heq, -⟩
    · exact heq
    · exact absurd heq (hnot u)
  cases frame with
  | requestStop k point =>
    cases point with
    | enter => trivial
    | invoke c | calling c =>
      obtain ⟨hloop, hsite, hstage⟩ := hholds
      exact ⟨h.looping hx (by rw [hstage]; trivial) hloop, h.callback _ _ hx hsite, hsame hsite hstage nofun⟩
    | finish c =>
      obtain ⟨hloop, hstage⟩ := hholds
      exact ⟨h.looping hx (by rw [hstage]; trivial) hloop, h.returned _ hstage⟩
  | register r c point =>
    cases point with
    | possible | requested | claim => exact h.entering hx hholds
    | link =>
      obtain ⟨hregistering, hinvoked⟩ := hholds
      exact ⟨h.registering hx hregistering, (h.owned _ _ hx hregistering.owned).1.trans hinvoked⟩
    | unlink | take =>
      obtain ⟨hregistering, hinvoked, hrequested⟩ := hholds
      exact ⟨h.registering hx hregistering, (h.owned _ _ hx hregistering.owned).1.trans hinvoked,
        h.suspects hx hregistering hrequested⟩
    | wait epoch | again => exact hholds
    | exchange hasValue =>
      obtain ⟨hregistering, hvalue, hrequested⟩ := hholds
      exact ⟨h.registering hx hregistering, hvalue, h.suspects hx hregistering hrequested⟩
    | calling =>
      obtain ⟨hsite, hstage⟩ := hholds
      exact ⟨h.callback _ _ hx hsite, hsame hsite hstage nofun⟩
  | reset r point =>
    cases point with
    | load | test phase => trivial
    | clear =>
      obtain ⟨c, hresetting, hlinked⟩ := hholds
      exact ⟨c, h.resetting hx hlinked.ne_unborn hresetting,
        h.linked r x c hx hresetting.held hresetting.belongs hlinked⟩
    | wait c epoch =>
      obtain ⟨hresetting, hbegun, hother, hwaits⟩ := hholds
      refine ⟨h.resetting hx hbegun.ne_unborn hresetting, h.begun _ hbegun, ?_, ?_⟩
      · rw [(h.identity _ hbegun.ne_unborn).1, (h.requested _ (h.called _ hbegun)).2]
        exact hother
      · rw [(h.identity _ hbegun.ne_unborn).1]
        exact h.waiting _ _ _ hwaits
    | again c =>
      obtain ⟨hresetting, hbegun, hother⟩ := hholds
      refine ⟨h.resetting hx hbegun.ne_unborn hresetting, h.begun _ hbegun, ?_⟩
      rw [(h.identity _ hbegun.ne_unborn).1, (h.requested _ (h.called _ hbegun)).2]
      exact hother
    | store callback =>
      obtain ⟨c, hcallback, hresetting, hsettled⟩ := hholds
      exact ⟨c, hcallback, h.resetting hx hsettled.ne_unborn hresetting, h.settled _ _ hsettled⟩

/-- The frames of a thread below a site, and those of other threads. -/
theorem Kept.stacked (hbelow : thread ≠ site.1 ∨ frames.length ≤ site.2)
    (hstacked : Stacked s m thread frames) : Stacked s' m' thread frames := by
  induction frames with
  | nil => trivial
  | cons frame rest ih =>
    obtain ⟨hholds, hrest⟩ := hstacked
    refine ⟨h.holds ?_ hholds, ih (hbelow.imp id Nat.le_of_succ_le) hrest⟩
    rintro rfl
    rcases hbelow with hne | hlt
    · exact hne rfl
    · exact absurd hlt (Nat.not_succ_le_self _)

end

end

end Ruvia.Core.StopToken
