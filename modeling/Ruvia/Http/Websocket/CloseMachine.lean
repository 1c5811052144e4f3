import Ruvia.Http.Websocket.OutputRefinement

/-!
# `Http.Websocket.CloseMachine` — one Close frame, and no way back

Every invariant is read off `step_effect` and `consumeOutput_quiet`: an operation moves the phase along an edge
of `CloseStep`. The Close frames follow from one relation between the frames of the output, `CloseOrder`: behind
a Close frame there are Pongs only.
-/

namespace Ruvia.Http

open Library

/-- Every frame behind a Close frame is a Pong. -/
def CloseOrder (frames : List WebsocketSentFrame) : Prop :=
  frames.Pairwise fun earlier later => earlier.opcode = .close → later.opcode = .pong

variable {frames : List WebsocketSentFrame}

theorem CloseOrder.one_close (h : CloseOrder frames) :
    (frames.filter fun frame => frame.opcode = .close).length ≤ 1 := by
  induction frames with
  | nil => exact Nat.zero_le 1
  | cons frame frames ih =>
    obtain ⟨hlater, hrest⟩ := List.pairwise_cons.mp h
    by_cases hclose : frame.opcode = .close
    · have hnone : (frames.filter fun frame => frame.opcode = .close) = [] := by
        rw [List.filter_eq_nil_iff]
        intro later hmem heq
        have hpong := hlater later hmem hclose
        rw [of_decide_eq_true heq] at hpong
        cases hpong
      rw [List.filter_cons_of_pos (by simpa using hclose), hnone]
      exact le_rfl
    · rw [List.filter_cons_of_neg (by simpa using hclose)]
      exact ih hrest

/-- No data frame stands behind a Close frame. -/
theorem CloseOrder.no_data {before after : List WebsocketSentFrame} {frame later : WebsocketSentFrame}
    (h : CloseOrder frames) (hsplit : frames = before ++ frame :: after) (hclose : frame.opcode = .close)
    (hlater : later ∈ after) : later.opcode.isData = false := by
  subst hsplit
  obtain ⟨_, hbehind, _⟩ := List.pairwise_append.mp h
  rw [(List.pairwise_cons.mp hbehind).1 later hlater hclose]
  rfl

/-- The phase never moves backwards, and a final phase is not left. -/
theorem CloseStep.forward {phase next : WebsocketClosePhase} (h : CloseStep phase frames next) :
    phase.toNat ≤ next.toNat ∧ (phase.isFinal = true → next.isFinal = true) := by
  cases h with
  | advance hle hfinal => exact ⟨hle, hfinal⟩
  | data _ | pong _ _ => exact ⟨le_rfl, id⟩
  | close _ _ => exact ⟨Nat.zero_le _, nofun⟩

namespace WebsocketConnection

variable {D M : Type} {options : WebsocketConnectionOptions D M} {c : WebsocketConnection D M}

/-- The frames and the phase agree: while the connection is open no Close frame has been queued. -/
structure CloseHolds (c : WebsocketConnection D M) : Prop where
  order : CloseOrder c.sentFrames
  none_yet : c.closePhase = .open → ∀ frame ∈ c.sentFrames, frame.opcode ≠ .close

/-- One edge of the close machine. -/
theorem step_closeStep (c : WebsocketConnection D M) (operation : Operation) :
    ∃ frames, (c.step options operation).1.sentFrames = c.sentFrames ++ frames ∧
      CloseStep c.closePhase frames (c.step options operation).1.closePhase := by
  by_cases hwrite : ∃ bytes, operation = .consumeOutput bytes
  · obtain ⟨bytes, rfl⟩ := hwrite
    obtain ⟨hsent, hphase, hfinal⟩ := consumeOutput_quiet c bytes
    exact ⟨[], hsent.trans (List.append_nil _).symm, .advance hphase hfinal⟩
  · obtain ⟨⟨frames, happ, hstep, _⟩, _⟩ :=
      @step_effect D M options c operation (fun bytes heq => hwrite ⟨bytes, heq⟩)
    exact ⟨frames, happ.sentFrames, hstep⟩

theorem CloseHolds.step (h : c.CloseHolds) (operation : Operation) : (c.step options operation).1.CloseHolds := by
  obtain ⟨frames, hsent, hstep⟩ := @step_closeStep D M options c operation
  generalize (c.step options operation).1 = d at hsent hstep
  generalize hphase : c.closePhase = phase at hstep
  generalize hnext : d.closePhase = next at hstep
  cases hstep with
  | advance hle _ =>
    rw [List.append_nil] at hsent
    refine ⟨hsent ▸ h.order, fun hopen => ?_⟩
    rw [hsent]
    apply h.none_yet
    rw [hphase]
    rw [hnext] at hopen
    subst hopen
    cases phase <;> first | rfl | exact absurd hle (by decide)
  | data hdata =>
    refine ⟨?_, fun _ => ?_⟩
    · rw [hsent]
      exact List.pairwise_append.mpr ⟨h.order, List.pairwise_singleton _ _,
        fun earlier hmem _ _ hclose => absurd hclose (h.none_yet hphase earlier hmem)⟩
    · rw [hsent]
      intro frame hmem
      rcases List.mem_append.mp hmem with hmem | hmem
      · exact h.none_yet hphase frame hmem
      · rw [List.mem_singleton.mp hmem]
        exact hdata
  | @pong _ pong hpong _ =>
    refine ⟨?_, fun hopen => ?_⟩
    · rw [hsent]
      refine List.pairwise_append.mpr ⟨h.order, List.pairwise_singleton _ _, fun _ _ later hmem _ => ?_⟩
      rw [List.mem_singleton.mp hmem]
      exact hpong
    · rw [hsent]
      intro frame hmem
      rcases List.mem_append.mp hmem with hmem | hmem
      · exact h.none_yet (hphase.trans (hnext.symm.trans hopen)) frame hmem
      · rw [List.mem_singleton.mp hmem, hpong]
        decide
  | close hclose hleft =>
    refine ⟨?_, fun hopen => absurd (hnext.symm.trans hopen) hleft⟩
    rw [hsent]
    exact List.pairwise_append.mpr ⟨h.order, List.pairwise_singleton _ _,
      fun earlier hmem _ _ hbefore => absurd hbefore (h.none_yet hphase earlier hmem)⟩

/-- The connection after any operations. -/
def after (options : WebsocketConnectionOptions D M) (c : WebsocketConnection D M)
    (operations : List Operation) : WebsocketConnection D M :=
  operations.foldl (fun c operation => (c.step options operation).1) c

theorem CloseHolds.after (h : c.CloseHolds) (operations : List Operation) :
    (c.after options operations).CloseHolds := by
  induction operations generalizing c with
  | nil => exact h
  | cons operation operations ih => exact ih (h.step operation)

/-! ## Submissions and polls by phase -/

variable {deflate : D} {opcode : WebsocketOpcode} {payload : Bytes} {storage : WebsocketPayloadStorage}
  {aliases : Bool}

/-- The appends behind the checks of `submit_frame` accept the frame or throw. -/
theorem appendTrial_status {rsv1 : Bool} :
    (c.appendTrial options deflate opcode payload rsv1 storage aliases).2 ≠ some .notOpen := by
  unfold appendTrial
  split <;> simp

theorem submitCompressed_status :
    (c.submitCompressed options deflate opcode payload storage aliases).2 ≠ some .notOpen := by
  have hthrown : ∀ trial : D, (c.discardTrial options trial, (none : Option WebsocketFrameSubmitStatus)).2 ≠
      some .notOpen := by
    intro trial
    simp
  unfold submitCompressed
  dsimp only
  split
  · exact hthrown _
  · split
    · exact hthrown _
    · exact appendTrial_status
  · split
    · exact appendTrial_status
    · split
      · exact hthrown _
      · exact appendTrial_status

/-- A frame is refused with `not_open` exactly outside the open phase. -/
theorem submitFrame_notOpen_iff (opcode : WebsocketOpcode) (payload : Bytes) (compress : Bool)
    (storage : WebsocketPayloadStorage) (aliases : Bool) :
    (c.submitFrame options opcode payload compress storage aliases).2 = some .notOpen ↔
      c.closePhase ≠ .open := by
  unfold submitFrame
  dsimp only
  by_cases hopen : c.closePhase = .open
  · rw [if_neg (not_not.mpr hopen)]
    refine ⟨fun hstatus => ?_, fun hne => absurd hopen hne⟩
    exfalso
    revert hstatus
    split
    · simp
    · split
      · simp
      · split
        · simp
        · split
          · simp
          · split
            · exact submitCompressed_status
            · split <;> simp
  · rw [if_pos hopen]
    exact ⟨fun _ => hopen, fun _ => rfl⟩

/-- A Close is refused for the phase exactly outside the open phase. -/
theorem submitClose_closing_iff (code : WebsocketCloseCode) (reason : Bytes) :
    (c.submitClose options code reason).2 = some .closed ∨
        (c.submitClose options code reason).2 = some .alreadyClosing ↔
      c.closePhase ≠ .open := by
  unfold submitClose
  by_cases hclosed : c.closePhase = .closed
  · rw [if_pos hclosed, hclosed]
    simp
  · rw [if_neg hclosed]
    by_cases hopen : c.closePhase = .open
    · rw [if_neg (not_not.mpr hopen)]
      refine ⟨fun hstatus => ?_, fun hne => absurd hopen hne⟩
      exfalso
      revert hstatus
      split
      · simp
      · split
        · simp
        · simp
        · split <;> simp
    · rw [if_pos hopen]
      exact ⟨fun _ => hopen, fun _ => .inr rfl⟩

/-- In a final phase a poll reports the end of the transport, and changes nothing else. -/
theorem nextEvent_final (h : c.closePhase.isFinal = true) :
    (c.nextEvent options).2 = .event .transportEnd ∧
      (c.nextEvent options).1.closePhase = c.closePhase ∧
      (c.nextEvent options).1.sentFrames = c.sentFrames := by
  obtain ⟨input, pending, needed, output, offset, borrowed, assembler, deflate, context, phase, sent⟩ := c
  cases phase
  case finalOutputQueued | transportEndReady | closed => exact ⟨rfl, rfl, rfl⟩
  all_goals cases h

/-! ## Every run -/

/-- **The close machine.** After any operations: at most one Close frame has entered the output, and no data
    frame behind it; whatever comes next, the phase does not move backwards, and neither the end of the
    transport nor a final phase is left; a submission is refused for the phase exactly when the connection is
    not open; and in a final phase every poll reports the end of the transport. -/
theorem close_machine (options : WebsocketConnectionOptions D M) (input : Bytes) (deflate : Option D)
    (maskKeyContext : M) (operations : List Operation) :
    let c := (fresh input deflate maskKeyContext).after options operations
    (c.sentFrames.filter fun frame => frame.opcode = .close).length ≤ 1 ∧
      (∀ before frame behind, c.sentFrames = before ++ frame :: behind → frame.opcode = .close →
        ∀ later ∈ behind, later.opcode.isData = false) ∧
      (∀ operation, c.closePhase.toNat ≤ (c.step options operation).1.closePhase.toNat) ∧
      (∀ more, c.closePhase.isEnded = true → (c.after options more).closePhase.isEnded = true) ∧
      (∀ opcode payload compress storage aliases,
        (c.submitFrame options opcode payload compress storage aliases).2 = some .notOpen ↔
          c.closePhase ≠ .open) ∧
      (∀ code reason, (c.submitClose options code reason).2 = some .closed ∨
          (c.submitClose options code reason).2 = some .alreadyClosing ↔ c.closePhase ≠ .open) ∧
      (c.closePhase.isFinal = true →
        ∀ more, ((c.after options more).nextEvent options).2 = .event .transportEnd) := by
  intro c
  have hfresh : (fresh input deflate maskKeyContext).CloseHolds :=
    { order := List.Pairwise.nil, none_yet := fun _ _ hmem => absurd hmem List.not_mem_nil }
  have h : c.CloseHolds := hfresh.after operations
  have hforward : ∀ (d : WebsocketConnection D M) (operation : Operation),
      d.closePhase.toNat ≤ (d.step options operation).1.closePhase.toNat ∧
        (d.closePhase.isFinal = true → (d.step options operation).1.closePhase.isFinal = true) := by
    intro d operation
    obtain ⟨_, _, hstep⟩ := @step_closeStep D M options d operation
    exact hstep.forward
  refine ⟨h.order.one_close, fun before frame behind hsplit hclose later hlater =>
    h.order.no_data hsplit hclose hlater, fun operation => (hforward c operation).1, fun more hended => ?_,
    submitFrame_notOpen_iff, submitClose_closing_iff, fun hfinal more => ?_⟩
  · have hge : ∀ d : WebsocketConnection D M, d.closePhase.isEnded = true ↔ 6 ≤ d.closePhase.toNat := by
      intro d
      cases d.closePhase <;> decide
    rw [hge] at hended ⊢
    clear_value c
    clear h
    induction more generalizing c with
    | nil => exact hended
    | cons operation more ih => exact ih _ (hended.trans (hforward c operation).1)
  · apply (nextEvent_final _).1
    clear_value c
    clear h
    induction more generalizing c with
    | nil => exact hfinal
    | cons operation more ih => exact ih _ ((hforward c operation).2 hfinal)

/-- A server without compression. -/
def plainServer : WebsocketConnectionOptions Unit Unit where
  role := .server
  messageLimit := .unlimited
  maxBufferedInputBytes := 1024
  deflate := ⟨fun d _ => (d, .failed), fun d _ _ => (d, .error), fun d => (d, true)⟩
  maskKeyGenerator := fun m => (m, none)

/-- An open connection refuses a Close submitted as a frame, and behind the end of the transport the terminal
    event is reported by every poll, not once. -/
theorem plainServer_reports_end_again :
    (((fresh [] none ()).submitFrame plainServer .close [] false .copy false).2 = some .invalidOpcode ∧
        (fresh [] none () : WebsocketConnection Unit Unit).closePhase = .open) ∧
      (let c := ((fresh [] none () : WebsocketConnection Unit Unit).step plainServer .abort).1;
        (c.nextEvent plainServer).2 = .event .transportEnd ∧
          ((c.nextEvent plainServer).1.nextEvent plainServer).2 = .event .transportEnd) :=
  ⟨⟨rfl, rfl⟩, rfl, rfl⟩

end WebsocketConnection

end Ruvia.Http
