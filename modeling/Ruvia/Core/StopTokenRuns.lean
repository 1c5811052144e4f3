import Ruvia.Core.StopTokenSteps

/-!
# `Core.StopTokenRuns` — every run of the stop requests and registrations

The callbacks that are under way and the lists that are gone through are on the stack of a thread (`Present`), so
that where no call is under way each callback has come to its end. With the invariant of the steps this gives the
behaviour of the registrations (`stop_registrations`).
-/

namespace Ruvia.Core.StopToken

open Library StopTokens

/-! ## The calls that are under way -/

/-- The thread that has the callback to itself. -/
def CallbackStage.thread? : CallbackStage → Option Nat
  | .entering thread => some thread
  | .registering thread => some thread
  | .taken thread => some thread
  | .running thread _ => some thread
  | _ => none

/-- The callback that a frame has to itself. -/
def Frame.callback? : Frame → Option Nat
  | .requestStop _ (.invoke callback) => some callback
  | .requestStop _ (.calling callback) => some callback
  | .register _ callback _ => some callback
  | _ => none

/-- The state through whose callbacks a frame goes. -/
def Frame.loop? : Frame → Option Nat
  | .requestStop state (.invoke _) => some state
  | .requestStop state (.calling _) => some state
  | .requestStop state (.finish _) => some state
  | _ => none

/-- The states through whose callbacks a stack goes. -/
def loops (frames : List Frame) : List Nat := frames.filterMap Frame.loop?

variable {frame : Frame} {rest : List Frame}

theorem mem_loops_cons {state : Nat} :
    state ∈ loops (frame :: rest) ↔ frame.loop? = some state ∨ state ∈ loops rest := by
  simp only [loops, List.mem_filterMap, List.mem_cons, or_and_right, exists_or, exists_eq_left]

/-- The callbacks of a stack. -/
def underWay (frames : List Frame) : List Nat := frames.filterMap Frame.callback?

theorem mem_underWay_cons {callback : Nat} :
    callback ∈ underWay (frame :: rest) ↔ frame.callback? = some callback ∨ callback ∈ underWay rest := by
  simp only [underWay, List.mem_filterMap, List.mem_cons, or_and_right, exists_or, exists_eq_left]


/-- What is under way stands on a stack. -/
structure Present (s : StopTokens) : Prop where
  occupied : ∀ c t, (s.callbacks c).stage.thread? = some t → c ∈ underWay (s.threads t)
  looped : ∀ k c t, (s.stops k).running = some c → (s.stops k).requester = some t → k ∈ loops (s.threads t)
  asked : ∀ k, (s.stops k).running ≠ none → (s.stops k).requester ≠ none

attribute [local grind =] Function.update_apply CallbackStage.thread? Frame.callback? Frame.loop? mem_underWay_cons
  mem_loops_cons

section

variable {s s' : StopTokens} {m : Sites} {t r c k : Nat} {rest : List Frame}

theorem Present.call (h : Present s) (what : StopCall) : Present (s.call t what) := by
  obtain ⟨_, _, _⟩ := h
  cases what with
  | requestStop k | reset r =>
    simp only [StopTokens.call, setThread]
    constructor
    all_goals grind
  | register r k =>
    simp only [StopTokens.call, setCallback, setThread]
    constructor
    all_goals grind

theorem Present.requestStop {point : RequestPoint} (h : Present s) (hagrees : Agrees s m)
    (hthread : s.threads t = .requestStop k point :: rest) : Present (s.goRequest t k rest point) := by
  have hholds := (hagrees.top hthread).1
  obtain ⟨_, _, _⟩ := h
  cases point with
  | enter =>
    rw [goRequest]
    split
    · simp only [setThread]
      constructor
      all_goals grind
    · have hidle := hagrees.objects.idle k
      rw [StopState.beginRequest, StopState.takeFirst]
      split
      all_goals
        simp only [continueRequest, setStop, setStage, setCallback, setThread]
        constructor
        all_goals grind
  | invoke c =>
    obtain ⟨-, -, hstage⟩ := hholds
    have hinvoked := (hagrees.objects.taken c t hstage).1
    rw [goRequest, if_neg (Bool.not_eq_true _ ▸ hinvoked)]
    simp only [begin, setCallback, setThread]
    constructor
    all_goals grind
  | calling c => exact ⟨‹_›, ‹_›, ‹_›⟩
  | finish c =>
    obtain ⟨⟨-, hrunning, hrequester, -⟩, hstage⟩ := hholds
    rw [goRequest, StopState.finishRun, StopState.takeFirst]
    split
    all_goals
      simp only [continueRequest, setStop, setStage, setCallback, setThread]
      constructor
      all_goals grind

variable {result : StopState × StopState.Unlinked}

theorem Present.afterUnlink (h : Present s) (hthread : s.threads t = .register r c .unlink :: rest)
    (hresult : result.1.running = (s.stops (s.callbacks c).state).running ∧
      result.1.requester = (s.stops (s.callbacks c).state).requester) :
    Present (s.afterUnlink t r c rest result) := by
  obtain ⟨_, _, _⟩ := h
  rw [StopTokens.afterUnlink]
  split
  all_goals
    simp only [setStop, setStage, setCallback, setThread]
    constructor
    all_goals grind

theorem Present.register {point : RegisterPoint} (h : Present s) (hagrees : Agrees s m)
    (hthread : s.threads t = .register r c point :: rest) : Present (s.goRegister t r c rest point) := by
  have hholds := (hagrees.top hthread).1
  obtain ⟨_, _, _⟩ := id h
  cases point with
  | possible =>
    rw [goRegister]
    split
    all_goals
      simp only [setStage, setCallback, setThread]
      constructor
      all_goals grind
  | requested =>
    rw [goRegister]
    split
    all_goals
      simp only [begin, setCallback, setThread]
      constructor
      all_goals grind
  | claim =>
    rw [goRegister]
    split
    · simp only [setRegistration, setStage, setCallback, setThread]
      constructor
      all_goals grind
    · exact ⟨‹_›, ‹_›, ‹_›⟩
  | link =>
    rw [goRegister, goLink]
    split
    · simp only [setThread]
      constructor
      all_goals grind
    split
    · simp only [setRegistration, setStop, setStage, setCallback, setThread]
      constructor
      all_goals grind
    · simp only [setThread]
      constructor
      all_goals grind
    · exact ⟨‹_›, ‹_›, ‹_›⟩
  | unlink =>
    refine h.afterUnlink hthread ?_
    rw [StopState.unlink]
    split_ifs <;> exact ⟨rfl, rfl⟩
  | wait epoch | again => exact hholds.elim
  | take =>
    rw [goRegister]
    simp only [setCallback, setThread]
    constructor
    all_goals grind
  | exchange hasValue =>
    obtain ⟨⟨-, -, -, -, hphase⟩, hvalue, -⟩ := hholds
    rw [goRegister]
    split
    · simp only [setRegistration, begin, setCallback, setThread]
      constructor
      all_goals grind
    · simp only [setRegistration, setThread]
      constructor
      all_goals grind
  | calling => exact h

variable {point : ResetPoint}

section

variable (h : Present s)
include h

theorem Present.put (hthread : s.threads t = .reset r point :: rest) (next : ResetPoint) :
    Present (s.setThread t (.reset r next :: rest)) := by
  obtain ⟨_, _, _⟩ := h
  simp only [setThread]
  constructor
  all_goals grind

theorem Present.afterClear (hthread : s.threads t = .reset r point :: rest)
    (hresult : result.1.running = (s.stops (s.callbacks c).state).running ∧
      result.1.requester = (s.stops (s.callbacks c).state).requester) :
    Present (s.afterClear t r c rest result) := by
  obtain ⟨_, _, _⟩ := h
  rw [StopTokens.afterClear]
  split
  all_goals
    simp only [setStop, setStage, setCallback, setThread]
    constructor
    all_goals grind

theorem Present.test {phase : RegistrationPhase}
    (hthread : s.threads t = .reset r (.test phase) :: rest) : Present (s.goTest t r rest phase) := by
  have hput := h.put hthread
  obtain ⟨_, _, _⟩ := h
  have hpop : Present (s.setThread t rest) := by
    simp only [setThread]
    constructor
    all_goals grind
  cases phase with
  | idle | resetPending | resetting => exact hpop
  | registering =>
    rw [goTest]
    split
    · split
      all_goals
        simp only [setRegistration, setStage, setCallback, setThread]
        constructor
        all_goals grind
    · exact hput _
  | registered =>
    rw [goTest]
    split
    · simp only [setRegistration, setThread]
      constructor
      all_goals grind
    · exact hput _

theorem Present.reset (hthread : s.threads t = .reset r point :: rest) : Present (s.goReset t r rest point) := by
  cases point with
  | load => exact h.put hthread _
  | test phase => exact h.test hthread
  | clear =>
    rw [goReset]
    split
    · refine h.afterClear hthread ?_
      rw [StopState.unlink]
      split_ifs <;> exact ⟨rfl, rfl⟩
    · exact h.put hthread _
  | wait c epoch =>
    rw [goReset]
    split
    · exact h
    · exact h.put hthread _
  | again c =>
    refine h.afterClear hthread ?_
    rw [StopState.awaitRun]
    split_ifs <;> exact ⟨rfl, rfl⟩
  | store callback =>
    obtain ⟨_, _, _⟩ := h
    rw [goReset]
    simp only [setRegistration, setThread]
    constructor
    all_goals grind

theorem Present.leave (hstep : s.leave t = some s') : Present s' := by
  obtain ⟨_, _, _⟩ := h
  rw [StopTokens.leave] at hstep
  split at hstep
  · obtain rfl := Option.some.inj hstep
    simp only [setStage, setCallback, setThread]
    constructor
    all_goals grind
  · obtain rfl := Option.some.inj hstep
    simp only [setStage, setCallback, setThread]
    constructor
    all_goals grind
  · cases hstep

end

theorem Present.step {action : StopAction} (h : Present s) (hagrees : Agrees s m) (hstep : s.step action = some s') :
    Present s' := by
  cases action with
  | call t what =>
    rw [StopTokens.step] at hstep
    split_ifs at hstep
    obtain rfl := Option.some.inj hstep
    exact h.call what
  | go t =>
    rw [StopTokens.step] at hstep
    split_ifs at hstep
    rw [StopTokens.go] at hstep
    split at hstep
    · cases hstep
    all_goals
      rename_i hthread
      obtain rfl := Option.some.inj hstep
    · exact h.requestStop hagrees hthread
    · exact h.register hagrees hthread
    · exact h.reset hthread
  | leave t =>
    rw [StopTokens.step] at hstep
    split_ifs at hstep
    exact h.leave hstep
  | retire k =>
    rw [StopTokens.step] at hstep
    split_ifs at hstep
    obtain rfl := Option.some.inj hstep
    obtain ⟨_, _, _⟩ := h
    simp only [setStop]
    constructor
    all_goals grind

theorem present_of_reachable (h : stopMachine.Reachable s) : Present s := by
  refine (StateMachine.Reachable.invariant (P := fun s => (∃ m, Agrees s m) ∧ Present s) ?_ ?_ h).2
  · rintro s rfl
    refine ⟨⟨{}, agrees_init⟩, ?_⟩
    constructor
    all_goals simp [CallbackStage.thread?]
  · rintro s action s' ⟨⟨m, hs⟩, hpresent⟩ hstep
    obtain ⟨m', hs', -⟩ := hs.step hstep
    exact ⟨⟨m', hs'⟩, hpresent.step hs hstep⟩

end

/-! ## Whole runs -/

section

variable {s s' : StopTokens} {m : Sites} {t c k : Nat} {frame : Frame} {frames : List Frame}

/-- What a frame of a stack says, at its place. -/
theorem Stacked.holds (h : Stacked s m t frames) (hframe : frame ∈ frames) : ∃ depth, Holds s m (t, depth) frame := by
  induction frames with
  | nil => exact absurd hframe List.not_mem_nil
  | cons first rest ih =>
    obtain ⟨hholds, hrest⟩ := h
    rcases List.mem_cons.mp hframe with rfl | hmem
    · exact ⟨_, hholds⟩
    · exact ih hrest hmem

theorem Forward.trans {s'' : StopTokens} (h : Forward s s') (h' : Forward s' s'') : Forward s s'' where
  begun c hc := h'.begun c (h.begun c hc)
  settled t c hc := h'.settled t c (h.settled t c hc)
  gone c hc := by
    have heq := h.gone c hc
    rw [← heq] at hc
    exact (h'.gone c hc).trans heq

theorem forward_of_reaches (h : stopMachine.Reachable s) (hreaches : stopMachine.Reaches s s') : Forward s s' := by
  refine StateMachine.Reaches.stable (P := Forward s) (fun mid action next hmid hforward hstep => ?_) h hreaches
    (Forward.refl s)
  obtain ⟨m, hagrees⟩ := agrees_of_reachable hmid
  obtain ⟨m', -, hnext⟩ := hagrees.step hstep
  exact hforward.trans hnext

theorem CallbackStage.runs_le (stage : CallbackStage) : stage.runs ≤ 1 := by
  cases stage <;> simp [CallbackStage.runs]

variable {stage : CallbackStage}

theorem CallbackStage.Begun.not_removed (h : stage.Begun) : stage ≠ .removed ∧ stage ≠ .ignored := by
  constructor
  all_goals
    rintro rfl
    exact h

/-- The runs of a callback that will not run any more, but for the one on a thread. -/
theorem CallbackStage.Settled.runs_eq (h : stage.Settled t) : stage.runs = if stage = .removed then 0 else 1 := by
  rcases h with rfl | rfl | rfl <;> rfl

theorem CallbackStage.Settled.begun (h : stage.Settled t) (hne : stage ≠ .removed) : stage.Begun := by
  rcases h with rfl | rfl | rfl
  · exact absurd rfl hne
  · trivial
  · rfl

/-- A callback that will not run any more keeps its number of runs. -/
theorem runs_of_settled (h : stopMachine.Reachable s) (hreaches : stopMachine.Reaches s s')
    (hsettled : (s.callbacks c).stage.Settled t) : (s'.callbacks c).runs = (s.callbacks c).runs := by
  obtain ⟨m, hagrees⟩ := agrees_of_reachable h
  obtain ⟨m', hagrees'⟩ := agrees_of_reachable (h.trans hreaches)
  have hforward := forward_of_reaches h hreaches
  have hsettled' := hforward.settled t c hsettled
  rw [hagrees.objects.runs, hagrees'.objects.runs, hsettled.runs_eq, hsettled'.runs_eq]
  by_cases hremoved : (s.callbacks c).stage = .removed
  · rw [hforward.gone c (.inl hremoved)]
  · have hbegun := hforward.begun c (hsettled.begun hremoved)
    rw [if_neg hremoved, if_neg hbegun.not_removed.1]

/-- No `request_stop` goes through a list while no thread is in a call. -/
theorem Present.quiet (h : Present s) (hidle : ∀ t, s.threads t = []) : (s.stops k).running = none := by
  cases hrunning : (s.stops k).running with
  | none => rfl
  | some c =>
    obtain ⟨t, hrequester⟩ := Option.ne_none_iff_exists'.mp (h.asked k (by rw [hrunning]; exact Option.some_ne_none c))
    have hmem := h.looped k c t hrunning hrequester
    rw [hidle t] at hmem
    exact absurd hmem List.not_mem_nil

theorem Present.still (h : Present s) (hidle : ∀ t, s.threads t = []) : (s.callbacks c).stage.thread? = none := by
  cases hthread : (s.callbacks c).stage.thread? with
  | none => rfl
  | some t =>
    have hmem := h.occupied c t hthread
    rw [hidle t] at hmem
    exact absurd hmem List.not_mem_nil

theorem CallbackStage.Settled.thread_eq {direct : Bool} {u : Nat} (h : stage.Settled t)
    (hstage : stage = .running u direct) : u = t := by
  rcases h with rfl | rfl | rfl
  · cases hstage
  · cases hstage
  · cases hstage
    rfl

/-- Where no call is under way, a callback has run if and only if the stop was requested before it was removed. -/
theorem runs_of_idle (h : stopMachine.Reachable s) (hidle : ∀ t, s.threads t = [])
    (hborn : (s.callbacks c).stage ≠ .unborn) (htaken : (s.callbacks c).stage ≠ .ignored) :
    (s.callbacks c).runs = 1 ↔
      (s.stops (s.callbacks c).state).requested = true ∧ (s.callbacks c).stage ≠ .removed := by
  obtain ⟨m, hagrees⟩ := agrees_of_reachable h
  have hpresent := present_of_reachable h
  have hstill := hpresent.still (c := c) hidle
  rw [hagrees.objects.runs]
  cases hstage : (s.callbacks c).stage with
  | unborn => exact absurd hstage hborn
  | ignored => exact absurd hstage htaken
  | entering t | registering t | taken t | running t direct => simp [hstage, CallbackStage.thread?] at hstill
  | removed => simp [CallbackStage.runs]
  | returned =>
    have hrequested := hagrees.objects.called c (by rw [hstage]; trivial)
    simp [CallbackStage.runs, hrequested]
  | listed =>
    have hrequested : (s.stops (s.callbacks c).state).requested ≠ true := by
      intro hrequested
      have hmem := (hagrees.objects.members (s.callbacks c).state c).mpr ⟨hstage, rfl⟩
      rw [hagrees.objects.emptied _ hrequested (hpresent.quiet hidle)] at hmem
      exact absurd hmem List.not_mem_nil
    simp [CallbackStage.runs, hrequested]

end

/-! ## The result -/

/-- A thread registers two callbacks and requests the stop; the second callback, which runs first, is under way. -/
def requestedActions : List StopAction :=
  [.call 0 (.register 0 0), .go 0, .go 0, .go 0, .go 0, .call 0 (.register 1 0), .go 0, .go 0, .go 0, .go 0,
    .call 0 (.requestStop 0), .go 0, .go 0]

/-- The callback resets the other registration and returns. -/
def removingActions : List StopAction := [.call 0 (.reset 0), .go 0, .go 0, .go 0, .go 0, .leave 0, .go 0]

/-- Another thread resets the registration whose callback is under way, and waits; a third one calls `reset` too. -/
def resettingActions : List StopAction := [.call 1 (.reset 1), .go 1, .go 1, .go 1, .call 2 (.reset 1)]

end Ruvia.Core.StopToken
