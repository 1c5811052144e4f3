import Ruvia.Web.RateLimitRuns

/-!
# `Web.RetryAfter` — when a refused key is admitted again

A refusal leaves the counts of its key alone, so that until the next admission they are the counts it was refused
with, faded (`Faded`). The delay a refusal names is the first millisecond at which faded counts admit
(`Faded.refuses`, `Faded.admits`); on the table this is what any later calls meet (`retry_after_exact`).
-/

namespace Ruvia.Web

open Library

namespace RateLimitCounter

variable {refused counter : RateLimitCounter} {rule : RateLimitRule} {window now : Nat}

/-- What becomes of counts without admissions: they stay, or are those of the window before, or nothing. -/
inductive Faded (refused : RateLimitCounter) (window now : Nat) : RateLimitCounter → Prop
  | kept : Faded refused window now refused
  | previous (hpassed : refused.windowStart + window ≤ now) : Faded refused window now
      { windowStart := refused.windowStart + window, current := 0, previous := refused.current }
  | gone (start : Nat) (hpassed : refused.windowStart + 2 * window ≤ now)
      (hstart : refused.windowStart + window ≤ start) :
      Faded refused window now { windowStart := start, current := 0, previous := 0 }

section

variable (h : Faded refused window now counter)
include h

theorem Faded.later {later : Nat} (hlater : now ≤ later) : Faded refused window later counter := by
  cases h with
  | kept => exact .kept
  | previous hpassed => exact .previous (Nat.le_trans hpassed hlater)
  | gone start hpassed hstart => exact .gone start (Nat.le_trans hpassed hlater) hstart

theorem Faded.windowStart_le : refused.windowStart ≤ counter.windowStart := by
  cases h with
  | kept => exact Nat.le_refl _
  | previous => exact Nat.le_add_right _ _
  | gone start _ hstart => exact Nat.le_trans (Nat.le_add_right _ _) hstart

/-- Rolling fades. -/
theorem Faded.roll : Faded refused window now (counter.roll window now) := by
  unfold RateLimitCounter.roll RateLimitCounter.new
  split
  · exact h
  · rename_i hpassed
    cases h with
    | kept =>
      split
      · exact .previous (Nat.le_of_not_lt hpassed)
      · exact .gone now (by omega) (by omega)
    | previous hfirst =>
      dsimp only at hpassed ⊢
      split
      · exact .gone _ (by omega) (by omega)
      · exact .gone now (by omega) (by omega)
    | gone start hfirst hstart =>
      split
      · exact .gone _ hfirst (by omega)
      · exact .gone now hfirst (by omega)

end

/-! ## The delay of a refusal -/

/-- **The delay of a refusal**: one more than the rest of the window, or down to the largest part that passes. -/
theorem retry_cases (hrefused : ¬ refused.Admits rule now) :
    (rule.maxRequests ≤ refused.current ∧
      (refused.refusal rule now).retryAfterMs = refused.remaining rule.window now + 1) ∨
    (refused.current < rule.maxRequests ∧ 0 < refused.previous ∧ ∃ passing,
      passing < refused.remaining rule.window now ∧
      (refused.refusal rule now).retryAfterMs = refused.remaining rule.window now - passing ∧
      ∀ remaining, refused.previous * remaining < (rule.maxRequests - refused.current) * rule.window ↔
        remaining ≤ passing) := by
  by_cases hroom : rule.maxRequests ≤ refused.current
  · exact .inl ⟨hroom, if_pos hroom⟩
  · right
    have hlt := Nat.lt_of_not_le hroom
    have hpositive := Nat.mul_pos (Nat.sub_pos_of_lt hlt) rule.window_pos
    rw [admits_iff, not_and] at hrefused
    have hover := hrefused hlt
    have hprevious : 0 < refused.previous := by
      rcases Nat.eq_zero_or_pos refused.previous with hzero | hpos
      · rw [hzero, Nat.zero_mul] at hover
        exact absurd hpositive hover
      · exact hpos
    have hpassing : ∀ remaining, refused.previous * remaining < (rule.maxRequests - refused.current) * rule.window ↔
        remaining ≤ ((rule.maxRequests - refused.current) * rule.window - 1) / refused.previous :=
      fun remaining => by
        rw [Nat.le_div_iff_mul_le hprevious, Nat.mul_comm]
        omega
    exact ⟨hlt, hprevious, _, Nat.lt_of_not_le (mt (hpassing _).mpr hover), if_neg hroom, hpassing⟩

/-- A retry is in the window of the refusal, at the boundary behind it, or one millisecond later. -/
theorem retry_le (hrefused : ¬ refused.Admits rule now) (hbegun : refused.windowStart ≤ now)
    (hinside : now < refused.windowStart + rule.window) :
    now + (refused.refusal rule now).retryAfterMs ≤ refused.windowStart + rule.window + 1 := by
  have hremaining : refused.remaining rule.window now = refused.windowStart + rule.window - now := by
    unfold remaining
    omega
  obtain ⟨-, hretry⟩ | ⟨-, -, passing, -, hretry, -⟩ := retry_cases hrefused
  · omega
  · omega

/-- **Before the retry instant faded counts refuse.** -/
theorem Faded.refuses {instant : Nat} (h : Faded refused rule.window instant counter)
    (hrefused : ¬ refused.Admits rule now) (hbounded : refused.Bounded rule) (hbegun : refused.windowStart ≤ now)
    (hinside : now < refused.windowStart + rule.window) (hnow : now ≤ instant)
    (hcurrent : counter.windowStart ≤ instant)
    (hbefore : instant < now + (refused.refusal rule now).retryAfterMs) : ¬ counter.Admits rule instant := by
  have hle := retry_le hrefused hbegun hinside
  have hwindow := rule.window_pos
  cases h with
  | kept =>
    rw [admits_iff]
    rintro ⟨hlt, hless⟩
    obtain ⟨hfull, -⟩ | ⟨-, -, passing, -, hretry, hpassing⟩ := retry_cases hrefused
    · omega
    · have hrest := (hpassing _).mp hless
      unfold remaining at hrest hretry
      omega
  | previous hpassed =>
    obtain ⟨hfull, hretry⟩ | ⟨-, -, passing, -, hretry, -⟩ := retry_cases hrefused
    · have hlimit : refused.current = rule.maxRequests := Nat.le_antisymm hbounded.current hfull
      have hat : instant = refused.windowStart + rule.window := by omega
      unfold Admits remaining
      dsimp only
      rw [hat, hlimit, Nat.sub_self, Nat.sub_zero]
      omega
    · unfold remaining at hretry
      omega
  | gone start hpassed _ => omega

/-- **At the retry instant they admit.** -/
theorem Faded.admits {instant : Nat} (h : Faded refused rule.window instant counter)
    (hrefused : ¬ refused.Admits rule now) (hbounded : refused.Bounded rule) (hbegun : refused.windowStart ≤ now)
    (hcurrent : counter.windowStart ≤ instant) (hinside : instant < counter.windowStart + rule.window)
    (hat : instant = now + (refused.refusal rule now).retryAfterMs) : counter.Admits rule instant := by
  have hwindow := rule.window_pos
  have hpositive : 0 < rule.maxRequests * rule.window := Nat.mul_pos rule.maxRequests_pos hwindow
  cases h with
  | kept =>
    obtain ⟨-, hretry⟩ | ⟨hlt, -, passing, hsmall, hretry, hpassing⟩ := retry_cases hrefused
    · unfold remaining at hretry
      omega
    · rw [admits_iff]
      refine ⟨hlt, (hpassing _).mpr ?_⟩
      unfold remaining at *
      omega
  | previous hpassed =>
    obtain ⟨hfull, hretry⟩ | ⟨hlt, -, passing, hsmall, hretry, -⟩ := retry_cases hrefused
    · have hlimit : refused.current = rule.maxRequests := Nat.le_antisymm hbounded.current hfull
      unfold remaining at hretry
      unfold Admits remaining
      dsimp only
      rw [hlimit, Nat.zero_mul, Nat.add_zero]
      exact Nat.mul_lt_mul_of_pos_left (by omega) rule.maxRequests_pos
    · unfold remaining at hretry hsmall
      unfold Admits remaining
      rw [Nat.zero_mul, Nat.add_zero]
      exact Nat.lt_of_le_of_lt (Nat.mul_le_mul_left _ (Nat.sub_le _ _))
        (Nat.mul_lt_mul_of_pos_right hlt hwindow)
  | gone start hpassed _ =>
    unfold Admits
    rwa [Nat.zero_mul, Nat.zero_mul, Nat.add_zero]

/-- The counts are zero no earlier than the retry. -/
theorem retry_le_reset (refused : RateLimitCounter) (rule : RateLimitRule) (now : Nat) :
    (refused.refusal rule now).retryAfterMs ≤ (refused.refusal rule now).resetAfterMs := by
  have hwindow := rule.window_pos
  have hlimit := rule.maxRequests_pos
  unfold RateLimitCounter.refusal
  dsimp only
  split
  · rw [if_neg (by omega)]
    omega
  · split
    · exact Nat.sub_le _ _
    · exact Nat.le_trans (Nat.sub_le _ _) (Nat.le_add_right _ _)

end RateLimitCounter

namespace RateLimitRun

open RateLimitCounter

variable {rules : RateLimitRules} {run run' : RateLimitRun} {scope : RateLimitScope} {key : Bytes}
  {rule : RateLimitRule} {refused : RateLimitCounter}

/-- The counts of a key that has no slot to take are gone. -/
theorem Good.gone_of_blocked (h : run.Good rules) {counter : RateLimitCounter} {nowMs : Nat}
    (hcounter : run.ideal scope key = some counter) (hruled : rules.ruleAt scope = some rule)
    (hblocked : run.Blocked scope key nowMs) : counter.windowStart + 2 * rule.window ≤ run.nowMs := by
  obtain ⟨rule', hruled', hpassed⟩ := h.absent scope key counter hcounter (h.not_held_of_blocked hblocked)
  rw [hruled, Option.some.injEq] at hruled'
  exact hruled' ▸ hpassed

/-! ## Decisions behind a refusal -/

/-- No decision of a list admits a key. -/
def NoneAdmitted (scope : RateLimitScope) (key : Bytes) (decisions : List RateLimitDecision) : Prop :=
  ∀ decision ∈ decisions, decision.scope = scope → decision.key = key → decision.decision ≠ none

/-- What decisions, the latest in front, say of a retry instant: before it the key is refused, and at it the key is
admitted unless it was meanwhile. A window of one millisecond may have lost the key its slot at that instant. -/
def Exact (scope : RateLimitScope) (key : Bytes) (rule : RateLimitRule) (retry : Nat)
    (decisions : List RateLimitDecision) : Prop :=
  ∀ later decision earlier, decisions = later ++ decision :: earlier → decision.scope = scope → decision.key = key →
    (decision.nowMs < retry → decision.decision ≠ none) ∧
    (decision.nowMs = retry → NoneAdmitted scope key earlier →
      decision.decision = none ∨ decision.overflow = true ∧ rule.window = 1)

theorem Exact.cons {retry : Nat} {decisions : List RateLimitDecision} {decision : RateLimitDecision}
    (h : Exact scope key rule retry decisions)
    (hnew : decision.scope = scope → decision.key = key →
      (decision.nowMs < retry → decision.decision ≠ none) ∧
      (decision.nowMs = retry → NoneAdmitted scope key decisions →
        decision.decision = none ∨ decision.overflow = true ∧ rule.window = 1)) :
    Exact scope key rule retry (decision :: decisions) := by
  intro later found earlier hsplit
  cases later with
  | nil =>
    obtain ⟨rfl, rfl⟩ := List.cons.inj hsplit
    exact hnew
  | cons first later => exact h later found earlier (List.cons.inj hsplit).2

variable {decisions : List RateLimitDecision}

theorem Exact.noneAdmitted {retry nowMs : Nat} (h : Exact scope key rule retry decisions)
    (hnow : ∀ decision ∈ decisions, decision.nowMs ≤ nowMs) (hbefore : nowMs < retry) :
    NoneAdmitted scope key decisions := by
  intro decision hmem hscope hkey
  obtain ⟨later, earlier, hsplit⟩ := List.append_of_mem hmem
  exact (h later decision earlier hsplit hscope hkey).1 (Nat.lt_of_le_of_lt (hnow decision hmem) hbefore)

/-- A refusal of a key at an instant, with the counts it was refused with. -/
structure Refused (rule : RateLimitRule) (refused : RateLimitCounter) (nowMs : Nat) : Prop where
  notAdmitted : ¬ refused.Admits rule nowMs
  bounded : refused.Bounded rule
  begun : refused.windowStart ≤ nowMs
  inside : nowMs < refused.windowStart + rule.window

/-- The instant a refusal names. -/
def retryAt (rule : RateLimitRule) (refused : RateLimitCounter) (nowMs : Nat) : Nat :=
  nowMs + (refused.refusal rule nowMs).retryAfterMs

/-- A run behind a refusal: the decisions since then are exact, and without an admission the counts have faded. -/
structure Since (old : List RateLimitDecision) (scope : RateLimitScope) (key : Bytes) (rule : RateLimitRule)
    (refused : RateLimitCounter) (nowMs : Nat) (run : RateLimitRun) (new : List RateLimitDecision) : Prop where
  decisions : run.decisions = new ++ old
  clock : nowMs ≤ run.nowMs
  instants : ∀ decision ∈ new, decision.nowMs ≤ run.nowMs
  exact : Exact scope key rule (retryAt rule refused nowMs) new
  faded : NoneAdmitted scope key new → ∃ counter, run.ideal scope key = some counter ∧
    Faded refused rule.window run.nowMs counter ∧ counter.windowStart ≤ run.nowMs

variable {instant : Nat}

theorem Since.faded_later {old new : List RateLimitDecision} {nowMs : Nat}
    (h : Since old scope key rule refused nowMs run new) (hclock : run.nowMs ≤ instant)
    (hnone : NoneAdmitted scope key new) : ∃ counter, run.ideal scope key = some counter ∧
      Faded refused rule.window instant counter ∧ counter.windowStart ≤ instant := by
  obtain ⟨counter, hcounter, hfaded, hstart⟩ := h.faded hnone
  exact ⟨counter, hcounter, hfaded.later hclock, Nat.le_trans hstart hclock⟩

variable {decision : RateLimitDecision}

theorem NoneAdmitted.of_cons (h : NoneAdmitted scope key (decision :: decisions)) :
    NoneAdmitted scope key decisions :=
  fun other hmem => h other (List.mem_cons_of_mem decision hmem)

variable {old new : List RateLimitDecision} {nowMs : Nat}

section

variable (h : Since old scope key rule refused nowMs run new)
include h

/-- The key cannot have lost its slot before the retry instant, nor at it if the window is longer than a
millisecond. -/
theorem Since.window_of_blocked (hrefused : Refused rule refused nowMs) (hgood : run.Good rules)
    (hruled : rules.ruleAt scope = some rule) (hclock : run.nowMs ≤ instant) (hnone : NoneAdmitted scope key new)
    (hblocked : run.Blocked scope key instant) (hinstant : instant ≤ retryAt rule refused nowMs) :
    instant = retryAt rule refused nowMs ∧ rule.window = 1 := by
  obtain ⟨counter, hcounter, hfaded, -⟩ := h.faded hnone
  have hgone := hgood.gone_of_blocked hcounter hruled hblocked
  have hstart := hfaded.windowStart_le
  have hretry := retry_le hrefused.notAdmitted hrefused.begun hrefused.inside
  have hwindow := rule.window_pos
  unfold retryAt at *
  omega

/-- **What the table decides about a key that was refused.** -/
theorem Since.decided (hrefused : Refused rule refused nowMs) (hclock : run.nowMs ≤ instant)
    (hnone : NoneAdmitted scope key new) :
    (instant < retryAt rule refused nowMs → (run.idealConsume scope key rule instant).2 ≠ none) ∧
    (instant = retryAt rule refused nowMs → (run.idealConsume scope key rule instant).2 = none) ∧
    ((run.idealConsume scope key rule instant).2 ≠ none →
      Faded refused rule.window instant (run.idealConsume scope key rule instant).1 ∧
      (run.idealConsume scope key rule instant).1.windowStart ≤ instant) := by
  obtain ⟨counter, hcounter, hfaded, hstart⟩ := h.faded_later hclock hnone
  have hrolled := hfaded.roll
  have hcurrent := @roll_begun counter rule.window instant hstart
  have hinside := @roll_inside counter rule.window instant rule.window_pos
  rw [idealConsume, hcounter, Option.getD_some, RateLimitCounter.consume]
  refine ⟨fun hbefore => ?_, fun hat => ?_, fun hne => ?_⟩
  · rw [if_neg (hrolled.refuses hrefused.notAdmitted hrefused.bounded hrefused.begun hrefused.inside
      (Nat.le_trans h.clock hclock) hcurrent hbefore)]
    exact Option.some_ne_none _
  · rw [if_pos (hrolled.admits hrefused.notAdmitted hrefused.bounded hrefused.begun hcurrent hinside hat)]
  · split at hne
    · exact absurd rfl hne
    · rename_i hadmits
      rw [if_neg hadmits]
      exact ⟨hrolled, hcurrent⟩

/-- The counts since a refusal, an instant later. -/
theorem Since.later (hclock : run.nowMs ≤ run'.nowMs) (hdecisions : run'.decisions = run.decisions)
    (hideal : run'.ideal scope key = run.ideal scope key) :
    Since old scope key rule refused nowMs run' new where
  decisions := hdecisions.trans h.decisions
  clock := Nat.le_trans h.clock hclock
  instants decision hmem := Nat.le_trans (h.instants decision hmem) hclock
  exact := h.exact
  faded hnone := hideal ▸ h.faded_later hclock hnone

/-- One more decision since a refusal. -/
theorem Since.cons {decision : RateLimitDecision} (hclock : run.nowMs ≤ run'.nowMs)
    (hnow : decision.nowMs = run'.nowMs) (hdecisions : run'.decisions = decision :: run.decisions)
    (hexact : decision.scope = scope → decision.key = key → (decision.nowMs < retryAt rule refused nowMs → decision.decision ≠ none) ∧ (decision.nowMs = retryAt rule refused nowMs → NoneAdmitted scope key new → decision.decision = none ∨ decision.overflow = true ∧ rule.window = 1))
    (hfaded : NoneAdmitted scope key (decision :: new) → ∃ counter, run'.ideal scope key = some counter ∧ Faded refused rule.window run'.nowMs counter ∧ counter.windowStart ≤ run'.nowMs) :
    Since old scope key rule refused nowMs run' (decision :: new) where
  decisions := by rw [hdecisions, h.decisions, List.cons_append]
  clock := Nat.le_trans h.clock hclock
  instants := List.forall_mem_cons.mpr
    ⟨Nat.le_of_eq hnow, fun other hmem => Nat.le_trans (h.instants other hmem) hclock⟩
  exact := h.exact.cons hexact
  faded := hfaded

/-- **A call keeps what holds since a refusal.** -/
theorem Since.step (hrefused : Refused rule refused nowMs) (hgood : run.Good rules)
    (hruled : rules.ruleAt scope = some rule) {call : RateLimitCall} (hstep : run.step rules call = some run') :
    ∃ new', Since old scope key rule refused nowMs run' new' := by
  obtain ⟨hclock, rfl | ⟨rule', hruled', ⟨hblocked, rfl⟩ | ⟨index, slot, hputs, rfl⟩⟩⟩ := hgood.step_cases hstep
  · exact ⟨new, h.later (instantMs_mono hclock) rfl rfl⟩
  · refine ⟨_, h.cons (instantMs_mono hclock) rfl rfl ?_ fun hnone => ?_⟩
    · rintro rfl rfl
      have hwindow := fun hnone hinstant =>
        h.window_of_blocked hrefused hgood hruled (instantMs_mono hclock) hnone hblocked hinstant
      refine ⟨fun hbefore => ?_, fun hat hnone => .inr ⟨rfl, (hwindow hnone (Nat.le_of_eq hat)).2⟩⟩
      have hnone := h.exact.noneAdmitted h.instants (Nat.lt_of_le_of_lt (instantMs_mono hclock) hbefore)
      exact absurd (hwindow hnone (Nat.le_of_lt hbefore)).1 (Nat.ne_of_lt hbefore)
    · exact h.faded_later (instantMs_mono hclock) hnone.of_cons
  · refine ⟨_, h.cons (instantMs_mono hclock) rfl rfl ?_ fun hnone => ?_⟩
    · rintro rfl rfl
      rw [hruled, Option.some.injEq] at hruled'
      subst hruled'
      refine ⟨fun hbefore => ?_, fun hat hnone => .inl ?_⟩
      · have hnone := h.exact.noneAdmitted h.instants (Nat.lt_of_le_of_lt (instantMs_mono hclock) hbefore)
        exact (h.decided hrefused (instantMs_mono hclock) hnone).1 hbefore
      · exact (h.decided hrefused (instantMs_mono hclock) hnone).2.1 hat
    · by_cases hmine : scope = call.scope ∧ key = call.key
      · obtain ⟨rfl, rfl⟩ := hmine
        rw [hruled, Option.some.injEq] at hruled'
        subst hruled'
        have hdecided := h.decided hrefused (instantMs_mono hclock) hnone.of_cons
        exact ⟨_, put_ideal_self, hdecided.2.2 (hnone _ List.mem_cons_self rfl rfl)⟩
      · rw [put_ideal_ne hmine]
        exact h.faded_later (instantMs_mono hclock) hnone.of_cons

end

variable {call : RateLimitCall} {rejection : RateLimitRejection}

/-- **A refusal that is not the overflow decision** is the beginning of such a run. -/
theorem since_refusal (hgood : run.Good rules) (hstep : run.step rules call = some run')
    (hdecisions : run'.decisions = decision :: run.decisions) (hoverflow : decision.overflow = false)
    (hrejected : decision.decision = some rejection) :
    ∃ rule refused, rules.ruleAt call.scope = some rule ∧ Refused rule refused (instantMs call.now) ∧
      rejection = refused.refusal rule (instantMs call.now) ∧
      Since run'.decisions call.scope call.key rule refused (instantMs call.now) run' [] := by
  obtain ⟨hclock, rfl | ⟨rule, hruled, ⟨-, rfl⟩ | ⟨index, slot, hputs, rfl⟩⟩⟩ := hgood.step_cases hstep
  · exact absurd hdecisions.symm (List.cons_ne_self _ _)
  · obtain ⟨rfl, -⟩ := List.cons.inj hdecisions
    cases hoverflow
  · obtain ⟨rfl, -⟩ := List.cons.inj hdecisions
    have hcounter := hputs.counter
    have hself := @put_ideal_self run call rule index slot
    have hideal : (run.idealConsume call.scope call.key rule (instantMs call.now)).2 = some rejection := hrejected
    rw [idealConsume, RateLimitCounter.consume] at hcounter hideal hself
    split at hideal
    · cases hideal
    · rename_i hrefused
      rw [if_neg hrefused] at hcounter hself
      have hstart : slot.counter.windowStart ≤ instantMs call.now := hputs.begun
      have hbounded := hputs.bounded
      rw [hcounter] at hstart hbounded
      refine ⟨rule, _, hruled, ⟨hrefused, hbounded, hstart, roll_inside rule.window_pos⟩,
        (Option.some.inj hideal).symm, ⟨rfl, Nat.le_refl _, nofun, ?_, fun _ => ?_⟩⟩
      · intro later found earlier hsplit
        simp at hsplit
      · exact ⟨_, hself, .kept, hstart⟩

/-- The wide division of a refusal is in its domain. -/
def DivisionDefined (slot : RateLimitSlot) (rule : RateLimitRule) (nowMs : Nat) : Prop :=
  let rolled := slot.rollWindow rule.window nowMs
  let remainingMs := rule.window - elapsedMs rolled.windowStartMs nowMs
  let room := multiplyWide (rule.maxRequests - rolled.currentCount) rule.window
  rolled.currentCount < rule.maxRequests → (multiplyWide rolled.previousCount remainingMs).less room = false →
    room.value ≠ 0 ∧ (widePredecessor room).high < rolled.previousCount

theorem divisionDefined {slot : RateLimitSlot} (hbounded : slot.counter.Bounded rule) (nowMs : Nat) :
    DivisionDefined slot rule nowMs := by
  intro hroom hless
  have hbounds : (slot.rollWindow rule.window nowMs).counter.Bounded rule := by
    rw [RateLimitSlot.rollWindow_counter rule.window_pos]
    exact hbounded.roll
  rw [RateLimitSlot.elapsedMs_eq] at hless
  have hrefused : ¬ (slot.rollWindow rule.window nowMs).counter.Admits rule nowMs := fun hadmits =>
    Bool.false_ne_true (hless.symm.trans ((RateLimitSlot.less_iff_admits hbounds).mpr hadmits).2)
  have hdefined := RateLimitSlot.division_defined hrefused hroom
  exact ⟨hdefined.1, hdefined.2.2⟩

/-- No refusal reports a reset before its retry. -/
theorem reset_of_step (hgood : run.Good rules) (hstep : run.step rules call = some run')
    (hdecisions : run'.decisions = decision :: run.decisions) (hrejected : decision.decision = some rejection) :
    rejection.retryAfterMs ≤ rejection.resetAfterMs := by
  cases hoverflow : decision.overflow with
  | false =>
    obtain ⟨rule, refused, -, -, rfl, -⟩ := since_refusal hgood hstep hdecisions hoverflow hrejected
    exact retry_le_reset refused rule _
  | true =>
    obtain ⟨-, rfl | ⟨rule, -, ⟨-, rfl⟩ | ⟨index, slot, -, rfl⟩⟩⟩ := hgood.step_cases hstep
    · exact absurd hdecisions.symm (List.cons_ne_self _ _)
    · obtain ⟨rfl, -⟩ := List.cons.inj hdecisions
      have hdenied : overflowDecision rule = some rejection := hrejected
      unfold overflowDecision at hdenied
      split at hdenied
      · cases hdenied
      · obtain rfl := Option.some.inj hdenied
        exact Nat.le_refl _
    · obtain ⟨rfl, -⟩ := List.cons.inj hdecisions
      cases hoverflow

end RateLimitRun

end Ruvia.Web
