import Mathlib.Data.List.Count
import Ruvia.Library.StateMachine
import Ruvia.Web.RateLimitEstimate

/-!
# `Web.RateLimitRuns` — the rate-limit table against a limiter that forgets nothing

Any calls with instants that do not run backwards. Beside the table runs an ideal limiter, a map from scope and key
to their counts; it sees the calls the table has an answer of its own for, not those that overflow. Every such answer
is the ideal one, a key is in one slot at most, and a window admits no more than the limit (`rate_limit_table`).
-/

namespace Ruvia.Web

open Library
open RateLimitCounter

/-- The rules in force: the default one, and the one declared at each address. -/
structure RateLimitRules where
  defaultRule : Option RateLimitRule
  declared : UInt64 → RateLimitRule

/-- The rule whose counts a scope names. -/
def RateLimitRules.ruleAt (rules : RateLimitRules) (scope : RateLimitScope) : Option RateLimitRule :=
  if scope.rule = 0 then rules.defaultRule else some (rules.declared scope.rule)

/-- A call of `allow_default` or of `allow_route`; a declaration's address is not null. -/
inductive RateLimitCall where
  | byDefault (remoteAddress : Bytes) (now : Int64)
  | byRoute (route : UInt64) (declaration : { address : UInt64 // address ≠ 0 }) (remoteAddress : Bytes)
      (now : Int64)

namespace RateLimitCall

def now : RateLimitCall → Int64
  | .byDefault _ now => now
  | .byRoute _ _ _ now => now

def key : RateLimitCall → Bytes
  | .byDefault remoteAddress _ => remoteAddress
  | .byRoute _ _ remoteAddress _ => remoteAddress

def scope : RateLimitCall → RateLimitScope
  | .byDefault _ _ => defaultScope
  | .byRoute route declaration _ _ => RateLimiter.routeScope route declaration.val

def run (rules : RateLimitRules) (limiter : RateLimiter) :
    RateLimitCall → RateLimiter × Option RateLimitRejection
  | .byDefault remoteAddress now => limiter.allowDefault remoteAddress now
  | .byRoute route declaration remoteAddress now =>
    limiter.allowRoute route declaration.val remoteAddress (rules.declared declaration.val) now

end RateLimitCall

/-- A decision of the table, and the ideal one unless it was the overflow decision. -/
structure RateLimitDecision where
  scope : RateLimitScope
  key : Bytes
  nowMs : Nat
  overflow : Bool
  decision : Option RateLimitRejection
  ideal : Option RateLimitRejection

structure RateLimitRun where
  limiter : RateLimiter
  clock : Int64
  ideal : RateLimitScope → Bytes → Option RateLimitCounter
  decisions : List RateLimitDecision

namespace RateLimitRun

def start (rules : RateLimitRules) (routeRules : Bool) (capacity : Nat) (hashKey : UInt64 × UInt64) :
    RateLimitRun :=
  { limiter := .new rules.defaultRule routeRules capacity hashKey
    clock := Int64.minValue
    ideal := fun _ _ => none
    decisions := [] }

/-- The ideal limiter's answer. -/
def idealConsume (run : RateLimitRun) (scope : RateLimitScope) (key : Bytes) (rule : RateLimitRule) (nowMs : Nat) :
    RateLimitCounter × Option RateLimitRejection :=
  ((run.ideal scope key).getD (.new nowMs)).consume rule nowMs

/-- The run behind a call that a rule decides. -/
def decided (run : RateLimitRun) (call : RateLimitCall) (rule : RateLimitRule)
    (result : RateLimiter × Option RateLimitRejection) : RateLimitRun :=
  let nowMs := instantMs call.now
  let overflow := run.limiter.place call.scope call.key nowMs == .overflow
  let ideal := run.idealConsume call.scope call.key rule nowMs
  { limiter := result.1
    clock := call.now
    ideal := fun scope key =>
      if !overflow && scope == call.scope && key == call.key then some ideal.1 else run.ideal scope key
    decisions :=
      { scope := call.scope, key := call.key, nowMs := nowMs, overflow := overflow, decision := result.2,
        ideal := ideal.2 } :: run.decisions }

variable (rules : RateLimitRules)

/-- A call whose instant is not before the last one; without a default rule `allow_default` decides nothing. -/
def step (run : RateLimitRun) (call : RateLimitCall) : Option RateLimitRun :=
  if call.now < run.clock then none
  else
    match rules.ruleAt call.scope with
    | some rule => some (run.decided call rule (call.run rules run.limiter))
    | none => some { run with clock := call.now }

def machine (routeRules : Bool) (capacity : Nat) (hashKey : UInt64 × UInt64) :
    StateMachine RateLimitRun RateLimitCall where
  init run := run = start rules routeRules capacity hashKey
  step := step rules

end RateLimitRun

/-! ## Probing -/

namespace RateLimiter

variable {limiter : RateLimiter} {scope : RateLimitScope} {key : Bytes} {hash : UInt64} {nowMs : Nat}

theorem probeIndex_lt (hne : limiter.slots ≠ []) (hash : UInt64) (probe : Nat) :
    limiter.probeIndex hash probe < limiter.slots.length := by
  have hpos := List.length_pos_iff.mpr hne
  unfold probeIndex
  dsimp only
  have hle : ((hash.toNat &&& (limiter.slots.length - 1)) + probe) &&& (limiter.slots.length - 1) ≤
      limiter.slots.length - 1 := Nat.and_le_right
  omega

/-- A slot a probe passed: it is occupied, by another key. -/
def Passes (limiter : RateLimiter) (scope : RateLimitScope) (key : Bytes) (hash : UInt64) (probe : Nat) : Prop :=
  ∃ slot, limiter.slots[limiter.probeIndex hash probe]? = some slot ∧ slot.keyHash ≠ 0 ∧
    slot.keyEquals scope key hash = false

/-- A slot a probe passed that is live. -/
def Blocks (limiter : RateLimiter) (scope : RateLimitScope) (key : Bytes) (hash : UInt64) (nowMs probe : Nat) :
    Prop :=
  ∃ slot, limiter.slots[limiter.probeIndex hash probe]? = some slot ∧ slot.keyHash ≠ 0 ∧
    slot.keyEquals scope key hash = false ∧ slot.stale nowMs = false

/-- **Where probing ends.** -/
inductive Placed (limiter : RateLimiter) (scope : RateLimitScope) (key : Bytes) (hash : UInt64) (nowMs window : Nat) :
    RateLimitPlacement → Prop
  | held (index : Nat) (slot : RateLimitSlot) (hslot : limiter.slots[index]? = some slot) (hused : slot.keyHash ≠ 0)
      (hequals : slot.keyEquals scope key hash = true) : Placed limiter scope key hash nowMs window (.held index)
  | taken (probe stop : Nat) (slot : RateLimitSlot) (hprobe : probe < window)
      (hslot : limiter.slots[limiter.probeIndex hash probe]? = some slot)
      (hfree : slot.keyHash = 0 ∨ slot.stale nowMs = true) (hle : probe ≤ stop)
      (hpassed : ∀ earlier, earlier < stop → limiter.Passes scope key hash earlier)
      (hstop : window ≤ stop ∨
        ∃ empty, limiter.slots[limiter.probeIndex hash stop]? = some empty ∧ empty.keyHash = 0) :
      Placed limiter scope key hash nowMs window (.taken (limiter.probeIndex hash probe))
  | overflow (hblocked : ∀ probe, probe < window → limiter.Blocks scope key hash nowMs probe) :
      Placed limiter scope key hash nowMs window .overflow

/-- The probes so far, and the stale slot among them. -/
structure Scanned (limiter : RateLimiter) (scope : RateLimitScope) (key : Bytes) (hash : UInt64) (nowMs probe : Nat)
    (reclaimable : Option Nat) : Prop where
  passed : ∀ earlier, earlier < probe → limiter.Passes scope key hash earlier
  live : reclaimable = none → ∀ earlier, earlier < probe → limiter.Blocks scope key hash nowMs earlier
  stale : ∀ index, reclaimable = some index → ∃ earlier, earlier < probe ∧ index = limiter.probeIndex hash earlier ∧
    ∃ slot, limiter.slots[limiter.probeIndex hash earlier]? = some slot ∧ slot.stale nowMs = true

theorem Scanned.start : limiter.Scanned scope key hash nowMs 0 none :=
  ⟨fun _ h => absurd h (Nat.not_lt_zero _), fun _ _ h => absurd h (Nat.not_lt_zero _), nofun⟩

theorem Scanned.next {probe : Nat} {reclaimable : Option Nat} {slot : RateLimitSlot}
    (h : limiter.Scanned scope key hash nowMs probe reclaimable)
    (hslot : limiter.slots[limiter.probeIndex hash probe]? = some slot) (hused : slot.keyHash ≠ 0)
    (hother : slot.keyEquals scope key hash = false) :
    limiter.Scanned scope key hash nowMs (probe + 1)
      (if reclaimable.isNone && slot.stale nowMs then some (limiter.probeIndex hash probe) else reclaimable) := by
  refine ⟨fun earlier hearlier => ?_, fun hnone earlier hearlier => ?_, fun index hindex => ?_⟩
  · rcases Nat.lt_succ_iff_lt_or_eq.mp hearlier with hlt | rfl
    · exact h.passed earlier hlt
    · exact ⟨slot, hslot, hused, hother⟩
  · split at hnone
    · cases hnone
    · rename_i hlive
      subst hnone
      rcases Nat.lt_succ_iff_lt_or_eq.mp hearlier with hlt | rfl
      · exact h.live rfl earlier hlt
      · refine ⟨slot, hslot, hused, hother, ?_⟩
        rw [Option.isNone_none, Bool.true_and, Bool.not_eq_true] at hlive
        exact hlive
  · split at hindex
    · rename_i hstale
      rw [Bool.and_eq_true] at hstale
      cases hindex
      exact ⟨probe, Nat.lt_succ_self probe, rfl, slot, hslot, hstale.2⟩
    · obtain ⟨earlier, hlt, hrest⟩ := h.stale index hindex
      exact ⟨earlier, Nat.lt_succ_of_lt hlt, hrest⟩

theorem placeFrom_placed (hne : limiter.slots ≠ []) (probes probe : Nat) (reclaimable : Option Nat)
    (h : limiter.Scanned scope key hash nowMs probe reclaimable) :
    limiter.Placed scope key hash nowMs (probe + probes)
      (limiter.placeFrom scope key hash nowMs probes probe reclaimable) := by
  induction probes generalizing probe reclaimable with
  | zero =>
    cases reclaimable with
    | none => exact .overflow (h.live rfl)
    | some index =>
      obtain ⟨earlier, hlt, rfl, slot, hslot, hstale⟩ := h.stale index rfl
      exact .taken earlier probe slot hlt hslot (.inr hstale) (Nat.le_of_lt hlt) h.passed (.inl (Nat.le_refl _))
  | succ probes ih =>
    unfold placeFrom
    dsimp only
    obtain ⟨slot, hslot⟩ : ∃ slot, limiter.slots[limiter.probeIndex hash probe]? = some slot :=
      ⟨_, List.getElem?_eq_getElem (probeIndex_lt hne hash probe)⟩
    rw [hslot]
    dsimp only
    split
    · rename_i hempty
      cases reclaimable with
      | none =>
        exact .taken probe probe slot (by omega) hslot (.inl hempty) (Nat.le_refl _) h.passed
          (.inr ⟨slot, hslot, hempty⟩)
      | some index =>
        obtain ⟨earlier, hlt, rfl, slot', hslot', hstale⟩ := h.stale index rfl
        exact .taken earlier probe slot' (by omega) hslot' (.inr hstale) (Nat.le_of_lt hlt) h.passed
          (.inr ⟨slot, hslot, hempty⟩)
    · rename_i hused
      split
      · exact .held _ slot hslot hused ‹_›
      · rename_i hother
        rw [Bool.not_eq_true] at hother
        rw [show probe + (probes + 1) = probe + 1 + probes by omega]
        exact ih (probe + 1) _ (h.next hslot hused hother)

/-- **Where the probing of a key ends.** -/
theorem place_placed (hne : limiter.slots ≠ []) (hkey : key.length ≤ rateLimitMaxKeyBytes) :
    limiter.Placed scope key (rateLimitKeyHash limiter.hashKey scope key) nowMs
      (min limiter.slots.length rateLimitProbeWindow) (limiter.place scope key nowMs) := by
  unfold place
  rw [if_neg]
  · have hplaced := @placeFrom_placed limiter scope key (rateLimitKeyHash limiter.hashKey scope key) nowMs hne
      (min limiter.slots.length rateLimitProbeWindow) 0 none .start
    rw [Nat.zero_add] at hplaced
    exact hplaced
  · rw [List.isEmpty_iff]
    exact fun h => h.elim hne (Nat.not_lt_of_le hkey)

theorem place_overflow (h : limiter.slots = [] ∨ rateLimitMaxKeyBytes < key.length) :
    limiter.place scope key nowMs = .overflow := by
  unfold place
  rw [if_pos]
  rw [List.isEmpty_iff]
  exact h

end RateLimiter

/-! ## The invariant -/

theorem instantMs_mono {now later : Int64} (h : now ≤ later) : instantMs now ≤ instantMs later := by
  have hle : now.toInt ≤ later.toInt := Int64.le_iff_toInt_le.mp h
  have hdiv : now.toInt.tdiv 1000000 ≤ later.toInt.tdiv 1000000 := Int.tdiv_le_tdiv (by decide) hle
  unfold instantMs
  dsimp only
  split <;> split <;> omega

theorem instantMs_lt (now : Int64) : instantMs now < 2 ^ 63 := by
  have hlt := Int64.toInt_lt now
  have hdiv : now.toInt.tdiv 1000000 ≤ (2 ^ 63 - 1 : Int).tdiv 1000000 :=
    Int.tdiv_le_tdiv (by decide) (by omega)
  rw [show (2 ^ 63 - 1 : Int).tdiv 1000000 = 9223372036854 by decide] at hdiv
  unfold instantMs
  dsimp only
  split <;> omega

namespace RateLimitSlot

/-- The slot holds the counts of a key. -/
def Holds (slot : RateLimitSlot) (scope : RateLimitScope) (key : Bytes) : Prop :=
  slot.keyHash ≠ 0 ∧ slot.scope = scope ∧ slot.key = key

end RateLimitSlot

namespace RateLimitRun

/-- The latest instant. -/
def nowMs (run : RateLimitRun) : Nat := instantMs run.clock

/-- The hash a key is placed with in this run. -/
def hashOf (run : RateLimitRun) (scope : RateLimitScope) (key : Bytes) : UInt64 :=
  rateLimitKeyHash run.limiter.hashKey scope key

/-- The probes a key has. -/
def probeWindow (run : RateLimitRun) : Nat := min run.limiter.slots.length rateLimitProbeWindow

/-- What holds of an occupied slot: it has the counts the ideal limiter has. -/
structure SlotGood (rules : RateLimitRules) (run : RateLimitRun) (slot : RateLimitSlot) (rule : RateLimitRule) :
    Prop where
  ruled : rules.ruleAt slot.scope = some rule
  hash : slot.keyHash = run.hashOf slot.scope slot.key
  short : slot.key.length ≤ rateLimitMaxKeyBytes
  staleAt : slot.staleAtMs = staleAtMs slot.windowStartMs rule.window
  bounded : slot.counter.Bounded rule
  begun : slot.windowStartMs ≤ run.nowMs
  ideal : run.ideal slot.scope slot.key = some slot.counter

/-- A slot is reached by the probes of its key, over occupied ones. -/
def Reached (run : RateLimitRun) (index : Nat) (scope : RateLimitScope) (key : Bytes) : Prop :=
  ∃ probe, probe < run.probeWindow ∧ run.limiter.probeIndex (run.hashOf scope key) probe = index ∧
    ∀ earlier, earlier < probe → ∃ slot,
      run.limiter.slots[run.limiter.probeIndex (run.hashOf scope key) earlier]? = some slot ∧ slot.keyHash ≠ 0

/-- **The invariant of every run.** What the table dropped is nothing the ideal limiter still counts. -/
structure Good (rules : RateLimitRules) (run : RateLimitRun) : Prop where
  default : run.limiter.defaultRule = rules.defaultRule
  slots : ∀ (index : Nat) slot, run.limiter.slots[index]? = some slot → slot.keyHash ≠ 0 →
    ∃ rule, run.SlotGood rules slot rule
  reached : ∀ (index : Nat) slot, run.limiter.slots[index]? = some slot → slot.keyHash ≠ 0 →
    run.Reached index slot.scope slot.key
  unique : ∀ (index other : Nat) slot slot' scope key, run.limiter.slots[index]? = some slot →
    run.limiter.slots[other]? = some slot' → slot.Holds scope key → slot'.Holds scope key → index = other
  absent : ∀ scope key counter, run.ideal scope key = some counter →
    (∀ (index : Nat) slot, run.limiter.slots[index]? = some slot → ¬ slot.Holds scope key) →
    ∃ rule, rules.ruleAt scope = some rule ∧ counter.windowStart + 2 * rule.window ≤ run.nowMs
  agree : ∀ decision ∈ run.decisions, decision.overflow = false → decision.decision = decision.ideal

variable {rules : RateLimitRules} {run : RateLimitRun}

variable {slot : RateLimitSlot} {rule : RateLimitRule} {run' : RateLimitRun}

theorem SlotGood.later (h : run.SlotGood rules slot rule) (hkey : run'.limiter.hashKey = run.limiter.hashKey)
    (hclock : run.nowMs ≤ run'.nowMs) (hideal : run'.ideal slot.scope slot.key = run.ideal slot.scope slot.key) :
    run'.SlotGood rules slot rule := by
  refine ⟨h.ruled, ?_, h.short, h.staleAt, h.bounded, Nat.le_trans h.begun hclock, hideal.trans h.ideal⟩
  unfold hashOf
  rw [hkey]
  exact h.hash

/-- A stale slot's two windows have passed. -/
theorem SlotGood.passed (h : run.SlotGood rules slot rule) {nowMs : Nat} (hnow : nowMs < 2 ^ 63)
    (hstale : slot.stale nowMs = true) :
    slot.windowStartMs + 2 * rule.window ≤ nowMs := by
  have hwindow := rule.window_lt
  unfold RateLimitSlot.stale at hstale
  rw [Bool.and_eq_true, decide_eq_true_eq, h.staleAt] at hstale
  have hle := hstale.2
  unfold staleAtMs at hle
  rw [@saturatingAdd_of_le rule.window rule.window (by unfold maxWord; omega)] at hle
  unfold saturatingAdd maxWord at hle
  split at hle <;> omega

/-! ## What a call does -/

/-- The run behind a call that writes a slot. -/
def put (run : RateLimitRun) (call : RateLimitCall) (rule : RateLimitRule) (index : Nat) (slot : RateLimitSlot) :
    RateLimitRun :=
  let ideal := run.idealConsume call.scope call.key rule (instantMs call.now)
  { limiter := { run.limiter with slots := run.limiter.slots.set index slot }
    clock := call.now
    ideal := fun scope key => if scope = call.scope ∧ key = call.key then some ideal.1 else run.ideal scope key
    decisions :=
      { scope := call.scope, key := call.key, nowMs := instantMs call.now, overflow := false, decision := ideal.2,
        ideal := ideal.2 } :: run.decisions }

/-- The run behind a call that finds no slot. -/
def overflowed (run : RateLimitRun) (call : RateLimitCall) (rule : RateLimitRule) : RateLimitRun :=
  { run with
    clock := call.now
    decisions :=
      { scope := call.scope, key := call.key, nowMs := instantMs call.now, overflow := true,
        decision := overflowDecision rule,
        ideal := (run.idealConsume call.scope call.key rule (instantMs call.now)).2 } :: run.decisions }

/-- A key without a slot to take. -/
def Blocked (run : RateLimitRun) (scope : RateLimitScope) (key : Bytes) (nowMs : Nat) : Prop :=
  (run.limiter.slots = [] ∨ rateLimitMaxKeyBytes < key.length) ∨
    ∀ probe, probe < run.probeWindow → run.limiter.Blocks scope key (run.hashOf scope key) nowMs probe

/-- **What a slot is written with**: the ideal counts of the key. It was the key's, empty, or one the ideal limiter
counts nothing for any more. -/
structure Puts (rules : RateLimitRules) (run : RateLimitRun) (call : RateLimitCall) (rule : RateLimitRule)
    (index : Nat) (slot : RateLimitSlot) : Prop where
  ruled : rules.ruleAt call.scope = some rule
  size : index < run.limiter.slots.length
  holds : slot.Holds call.scope call.key
  hash : slot.keyHash = run.hashOf call.scope call.key
  short : call.key.length ≤ rateLimitMaxKeyBytes
  staleAt : slot.staleAtMs = staleAtMs slot.windowStartMs rule.window
  counter : slot.counter = (run.idealConsume call.scope call.key rule (instantMs call.now)).1
  bounded : slot.counter.Bounded rule
  begun : slot.windowStartMs ≤ instantMs call.now
  reached : run.Reached index call.scope call.key
  origin : (∃ old, run.limiter.slots[index]? = some old ∧ old.Holds call.scope call.key ∧
      run.idealConsume call.scope call.key rule (instantMs call.now) =
        old.counter.consume rule (instantMs call.now)) ∨
    (∀ (other : Nat) held, run.limiter.slots[other]? = some held → ¬ held.Holds call.scope call.key) ∧
      (∀ old, run.limiter.slots[index]? = some old → old.keyHash = 0 ∨ old.stale (instantMs call.now) = true) ∧
      run.idealConsume call.scope call.key rule (instantMs call.now) =
        (new (instantMs call.now)).consume rule (instantMs call.now)

theorem keyEquals_iff {scope : RateLimitScope} {key : Bytes} {hash : UInt64} :
    slot.keyEquals scope key hash = true ↔ slot.keyHash = hash ∧ slot.scope = scope ∧ slot.key = key := by
  unfold RateLimitSlot.keyEquals
  rw [Bool.and_eq_true, Bool.and_eq_true, beq_iff_eq, beq_iff_eq, beq_iff_eq, and_assoc]

variable {index : Nat}

/-- A slot that holds a key has its hash. -/
theorem Good.hash_eq (h : run.Good rules) {scope : RateLimitScope} {key : Bytes}
    (hslot : run.limiter.slots[index]? = some slot) (hholds : slot.Holds scope key) :
    slot.keyEquals scope key (run.hashOf scope key) = true := by
  obtain ⟨hused, rfl, rfl⟩ := hholds
  obtain ⟨rule, hgood⟩ := h.slots index slot hslot hused
  exact keyEquals_iff.mpr ⟨hgood.hash, rfl, rfl⟩

/-- **Probing finds a key that is in the table**: what stops in front of an empty slot, or behind the last probe,
passed every slot of the key. -/
theorem Good.not_held (h : run.Good rules) {scope : RateLimitScope} {key : Bytes} {stop : Nat}
    (hpassed : ∀ earlier, earlier < stop → run.limiter.Passes scope key (run.hashOf scope key) earlier)
    (hstop : run.probeWindow ≤ stop ∨ ∃ empty,
      run.limiter.slots[run.limiter.probeIndex (run.hashOf scope key) stop]? = some empty ∧ empty.keyHash = 0)
    (index : Nat) (slot : RateLimitSlot) (hslot : run.limiter.slots[index]? = some slot) :
    ¬ slot.Holds scope key := by
  intro hholds
  have hequals := h.hash_eq hslot hholds
  obtain ⟨hused, rfl, rfl⟩ := hholds
  obtain ⟨probe, hprobe, rfl, hearlier⟩ := h.reached index slot hslot hused
  rcases Nat.lt_or_ge probe stop with hlt | hge
  · obtain ⟨passed, hat, _, hother⟩ := hpassed probe hlt
    rw [hslot, Option.some.injEq] at hat
    rw [← hat, hequals] at hother
    cases hother
  · rcases hstop with hle | ⟨empty, hat, hempty⟩
    · omega
    · rcases Nat.lt_or_eq_of_le hge with hlt | heq
      · obtain ⟨occupied, hat', hused'⟩ := hearlier stop hlt
        rw [hat, Option.some.injEq] at hat'
        exact hused' (hat' ▸ hempty)
      · rw [heq, hslot, Option.some.injEq] at hat
        exact hused (hat ▸ hempty)

/-- The counts of a key that is in no slot are those of a new one. -/
theorem Good.ideal_absent (h : run.Good rules) {scope : RateLimitScope} {key : Bytes}
    (hruled : rules.ruleAt scope = some rule)
    (habsent : ∀ (index : Nat) slot, run.limiter.slots[index]? = some slot → ¬ slot.Holds scope key) {nowMs : Nat}
    (hnow : run.nowMs ≤ nowMs) :
    run.idealConsume scope key rule nowMs = (new nowMs).consume rule nowMs := by
  unfold idealConsume
  cases hideal : run.ideal scope key with
  | none => rfl
  | some counter =>
    obtain ⟨rule', hruled', hpassed⟩ := h.absent scope key counter hideal habsent
    rw [hruled, Option.some.injEq] at hruled'
    subst hruled'
    refine consume_stale ?_
    show counter.windowStart + 2 * rule.window ≤ nowMs
    omega

variable {call : RateLimitCall}

variable {limiter : RateLimiter}

/-- The call comes down to `allow` under the rule of its scope. -/
theorem call_run_eq (hdefault : limiter.defaultRule = rules.defaultRule)
    (hruled : rules.ruleAt call.scope = some rule) :
    call.run rules limiter = limiter.allow call.scope call.key rule (instantMs call.now) := by
  cases call with
  | byDefault remoteAddress now =>
    replace hruled : rules.defaultRule = some rule := hruled
    show limiter.allowDefault remoteAddress now = _
    unfold RateLimiter.allowDefault
    rw [hdefault, hruled]
    rfl
  | byRoute route declaration remoteAddress now =>
    have hdeclared : rules.declared declaration.val = rule := by
      unfold RateLimitRules.ruleAt at hruled
      have hne : (RateLimitCall.byRoute route declaration remoteAddress now).scope.rule ≠ 0 := declaration.property
      rw [if_neg hne, Option.some.injEq] at hruled
      exact hruled
    subst hdeclared
    rfl

theorem consume_begun {counter : RateLimitCounter} {nowMs : Nat} (hbegun : counter.windowStart ≤ nowMs) :
    (counter.consume rule nowMs).1.windowStart ≤ nowMs := by
  unfold consume
  dsimp only
  split <;> exact roll_begun hbegun

variable {old : RateLimitSlot}

/-- A call answered from the key's own slot. -/
theorem Good.puts_held (h : run.Good rules) (hclock : run.clock ≤ call.now)
    (hruled : rules.ruleAt call.scope = some rule) (hold : run.limiter.slots[index]? = some old)
    (hholds : old.Holds call.scope call.key) :
    run.Puts rules call rule index (old.consume rule (instantMs call.now)).1 ∧
      (old.consume rule (instantMs call.now)).2 =
        (run.idealConsume call.scope call.key rule (instantMs call.now)).2 := by
  have hnow : run.nowMs ≤ instantMs call.now := instantMs_mono hclock
  obtain ⟨hused, hscope, hkey⟩ := hholds
  obtain ⟨rule', hgood⟩ := h.slots index old hold hused
  have hsame : rule' = rule := by
    have := hgood.ruled
    rw [hscope, hruled, Option.some.injEq] at this
    exact this.symm
  subst hsame
  have hideal : run.idealConsume call.scope call.key rule' (instantMs call.now) =
      old.counter.consume rule' (instantMs call.now) := by
    unfold idealConsume
    rw [← hscope, ← hkey, hgood.ideal]
    rfl
  obtain ⟨hcounter, hdecision⟩ := @RateLimitSlot.consume_counter old rule' (instantMs call.now) hgood.bounded
  obtain ⟨hscope', hhash', hkey', hstale'⟩ := @RateLimitSlot.consume_rest old rule' (instantMs call.now)
  rw [hideal]
  refine ⟨⟨hruled, (List.getElem?_eq_some_iff.mp hold).1, ⟨?_, hscope'.trans hscope, hkey'.trans hkey⟩, ?_, ?_,
    hstale' hgood.staleAt, ?_, ?_, ?_, ?_, .inl ⟨old, hold, ⟨hused, hscope, hkey⟩, hideal⟩⟩, hdecision⟩
  · rw [hhash']
    exact hused
  · rw [hhash', hgood.hash, hscope, hkey]
  · rw [← hkey]
    exact hgood.short
  · rw [hideal]
    exact hcounter
  · rw [hcounter]
    exact hgood.bounded.consume
  · show (old.consume rule' (instantMs call.now)).1.counter.windowStart ≤ _
    rw [hcounter]
    exact consume_begun (Nat.le_trans hgood.begun hnow)
  · rw [← hscope, ← hkey]
    exact h.reached index old hold hused

/-- A call that takes a slot for a key that has none. -/
theorem Good.puts_taken (h : run.Good rules) (hclock : run.clock ≤ call.now)
    (hruled : rules.ruleAt call.scope = some rule) (hshort : call.key.length ≤ rateLimitMaxKeyBytes)
    (hold : run.limiter.slots[index]? = some old) (hfree : old.keyHash = 0 ∨ old.stale (instantMs call.now) = true)
    (hreached : run.Reached index call.scope call.key)
    (habsent : ∀ (other : Nat) held, run.limiter.slots[other]? = some held → ¬ held.Holds call.scope call.key) :
    run.Puts rules call rule index
        (consumeNewKey call.scope call.key (run.hashOf call.scope call.key) rule (instantMs call.now)).1 ∧
      (consumeNewKey call.scope call.key (run.hashOf call.scope call.key) rule (instantMs call.now)).2 =
        (run.idealConsume call.scope call.key rule (instantMs call.now)).2 := by
  have hnow : run.nowMs ≤ instantMs call.now := instantMs_mono hclock
  have hideal := h.ideal_absent hruled habsent hnow
  have hbounded : (newKeySlot call.scope call.key (run.hashOf call.scope call.key) rule
      (instantMs call.now)).counter.Bounded rule := RateLimitCounter.Bounded.new
  obtain ⟨hcounter, hdecision⟩ := @RateLimitSlot.consume_counter _ rule (instantMs call.now) hbounded
  obtain ⟨hscope', hhash', hkey', hstale'⟩ := @RateLimitSlot.consume_rest
    (newKeySlot call.scope call.key (run.hashOf call.scope call.key) rule (instantMs call.now)) rule
    (instantMs call.now)
  rw [hideal]
  refine ⟨⟨hruled, (List.getElem?_eq_some_iff.mp hold).1, ⟨?_, hscope', hkey'⟩, hhash', hshort, hstale' rfl, ?_, ?_, ?_,
    hreached, .inr ⟨habsent, ?_, hideal⟩⟩, hdecision⟩
  · show (RateLimitSlot.consume _ _ _).1.keyHash ≠ 0
    rw [hhash']
    exact rateLimitKeyHash_ne_zero _ _ _
  · rw [hideal]
    exact hcounter
  · show (RateLimitSlot.consume _ _ _).1.counter.Bounded rule
    rw [hcounter]
    exact hbounded.consume
  · show (RateLimitSlot.consume _ _ _).1.counter.windowStart ≤ _
    rw [hcounter]
    exact consume_begun (Nat.le_refl _)
  · intro old' hold'
    rw [hold, Option.some.injEq] at hold'
    subst hold'
    exact hfree

theorem decided_overflow (hplace : run.limiter.place call.scope call.key (instantMs call.now) = .overflow) :
    run.decided call rule (run.limiter.allow call.scope call.key rule (instantMs call.now)) =
      run.overflowed call rule := by
  unfold decided RateLimiter.allow
  dsimp only
  rw [hplace]
  rfl

theorem decided_put (hplace : run.limiter.place call.scope call.key (instantMs call.now) ≠ .overflow) :
    run.decided call rule ({ run.limiter with slots := run.limiter.slots.set index slot },
      (run.idealConsume call.scope call.key rule (instantMs call.now)).2) = run.put call rule index slot := by
  unfold decided put
  dsimp only
  rw [beq_eq_false_iff_ne.mpr hplace]
  congr 1
  funext scope key
  simp only [Bool.not_false, Bool.true_and, Bool.and_eq_true, beq_iff_eq]

/-- **What a call does**: nothing without a rule, an overflow decision for a blocked key, or a slot written with the
ideal counts and the ideal decision. -/
theorem Good.step_cases (h : run.Good rules) (hstep : run.step rules call = some run') :
    run.clock ≤ call.now ∧
      (run' = { run with clock := call.now } ∨
        ∃ rule, rules.ruleAt call.scope = some rule ∧
          (run.Blocked call.scope call.key (instantMs call.now) ∧ run' = run.overflowed call rule ∨
            ∃ index slot, run.Puts rules call rule index slot ∧ run' = run.put call rule index slot)) := by
  unfold step at hstep
  split at hstep
  · cases hstep
  rename_i hclock
  rw [Int64.not_lt] at hclock
  refine ⟨hclock, ?_⟩
  split at hstep
  · rename_i rule hruled
    right
    refine ⟨rule, hruled, ?_⟩
    rw [call_run_eq h.default hruled, Option.some.injEq] at hstep
    subst hstep
    by_cases hlong : run.limiter.slots = [] ∨ rateLimitMaxKeyBytes < call.key.length
    · exact .inl ⟨.inl hlong, decided_overflow (RateLimiter.place_overflow hlong)⟩
    rw [not_or, not_lt] at hlong
    have hplaced := @RateLimiter.place_placed run.limiter call.scope call.key (instantMs call.now) hlong.1 hlong.2
    cases hplace : run.limiter.place call.scope call.key (instantMs call.now) with
    | held index =>
      have hne : run.limiter.place call.scope call.key (instantMs call.now) ≠ .overflow := by
        rw [hplace]
        exact nofun
      rw [hplace] at hplaced
      obtain ⟨_, slot, hslot, hused, hequals⟩ := hplaced
      have hholds : slot.Holds call.scope call.key := ⟨hused, (keyEquals_iff.mp hequals).2⟩
      obtain ⟨hputs, hdecision⟩ := h.puts_held hclock hruled hslot hholds
      refine .inr ⟨index, _, hputs, ?_⟩
      rw [← decided_put hne, ← hdecision]
      unfold RateLimiter.allow
      rw [hplace]
      dsimp only
      rw [List.getD_eq_getElem?_getD, hslot]
      rfl
    | taken index =>
      have hne : run.limiter.place call.scope call.key (instantMs call.now) ≠ .overflow := by
        rw [hplace]
        exact nofun
      rw [hplace] at hplaced
      cases hplaced with
      | taken probe stop slot hprobe hslot hfree hle hpassed hstop =>
        have hreached : run.Reached (run.limiter.probeIndex (run.hashOf call.scope call.key) probe) call.scope
            call.key := by
          refine ⟨probe, hprobe, rfl, fun earlier hearlier => ?_⟩
          obtain ⟨passed, hat, hused, _⟩ := hpassed earlier (Nat.lt_of_lt_of_le hearlier hle)
          exact ⟨passed, hat, hused⟩
        obtain ⟨hputs, hdecision⟩ := h.puts_taken hclock hruled hlong.2 hslot hfree hreached
          (h.not_held hpassed hstop)
        refine .inr ⟨_, _, hputs, ?_⟩
        rw [← decided_put hne, ← hdecision]
        unfold RateLimiter.allow
        rw [hplace]
        rfl
    | overflow =>
      rw [hplace] at hplaced
      cases hplaced with
      | overflow hblocked => exact .inl ⟨.inr hblocked, decided_overflow hplace⟩
  · exact .inl (Option.some.inj hstep).symm

/-! ## Every run is good -/

theorem good_start (routeRules : Bool) (capacity : Nat) (hashKey : UInt64 × UInt64) :
    (start rules routeRules capacity hashKey).Good rules := by
  have hempty : ∀ (index : Nat) slot,
      (start rules routeRules capacity hashKey).limiter.slots[index]? = some slot → slot.keyHash = 0 := by
    intro index slot hslot
    replace hslot : (if rules.defaultRule.isSome || routeRules then List.replicate capacity {} else [])[index]? =
      some slot := hslot
    split at hslot
    · have hmem := List.mem_of_getElem? hslot
      rw [(List.mem_replicate.mp hmem).2]
    · cases hslot
  refine ⟨rfl, ?_, ?_, ?_, ?_, ?_⟩
  · exact fun index slot hslot hused => absurd (hempty index slot hslot) hused
  · exact fun index slot hslot hused => absurd (hempty index slot hslot) hused
  · exact fun index _ slot _ _ _ hslot _ hholds => absurd (hempty index slot hslot) hholds.1
  · exact nofun
  · exact nofun

/-- A later instant alone keeps everything. -/
theorem Good.later (h : run.Good rules) (hlimiter : run'.limiter = run.limiter) (hideal : run'.ideal = run.ideal)
    (hclock : run.clock ≤ run'.clock)
    (hagree : ∀ decision ∈ run'.decisions, decision.overflow = false → decision.decision = decision.ideal) :
    run'.Good rules := by
  have hnow : run.nowMs ≤ run'.nowMs := instantMs_mono hclock
  refine ⟨by rw [hlimiter]; exact h.default, ?_, ?_, ?_, ?_, hagree⟩
  · intro index slot hslot hused
    rw [hlimiter] at hslot
    obtain ⟨rule, hgood⟩ := h.slots index slot hslot hused
    exact ⟨rule, hgood.later (by rw [hlimiter]) hnow (by rw [hideal])⟩
  · unfold Reached probeWindow hashOf
    rw [hlimiter]
    exact h.reached
  · rw [hlimiter]
    exact h.unique
  · intro scope key counter hcounter habsent
    rw [hideal] at hcounter
    rw [hlimiter] at habsent
    obtain ⟨rule, hruled, hpassed⟩ := h.absent scope key counter hcounter habsent
    exact ⟨rule, hruled, Nat.le_trans hpassed hnow⟩

variable {other : Nat} {found : RateLimitSlot}

theorem put_slots (h : (run.put call rule index slot).limiter.slots[other]? = some found) :
    other = index ∧ found = slot ∨ other ≠ index ∧ run.limiter.slots[other]? = some found := by
  replace h : (run.limiter.slots.set index slot)[other]? = some found := h
  rw [List.getElem?_set] at h
  split at h
  · rename_i heq
    split at h
    · exact .inl ⟨heq.symm, (Option.some.inj h).symm⟩
    · cases h
  · exact .inr ⟨fun heq => ‹index ≠ other› heq.symm, h⟩

theorem put_slots_self (hsize : index < run.limiter.slots.length) :
    (run.put call rule index slot).limiter.slots[index]? = some slot :=
  List.getElem?_set_self hsize

theorem put_slots_ne (hne : other ≠ index) :
    (run.put call rule index slot).limiter.slots[other]? = run.limiter.slots[other]? :=
  List.getElem?_set_ne (Ne.symm hne)

theorem length_put_slots : (run.put call rule index slot).limiter.slots.length = run.limiter.slots.length :=
  List.length_set

theorem put_probeIndex (hash : UInt64) (probe : Nat) :
    (run.put call rule index slot).limiter.probeIndex hash probe = run.limiter.probeIndex hash probe := by
  unfold RateLimiter.probeIndex
  rw [length_put_slots]

theorem put_probeWindow : (run.put call rule index slot).probeWindow = run.probeWindow := by
  unfold probeWindow
  rw [length_put_slots]

/-- No slot becomes empty, so what a probe could reach it can still reach. -/
theorem Puts.reached_put (h : run.Puts rules call rule index slot) {scope : RateLimitScope} {key : Bytes}
    (hreached : run.Reached other scope key) :
    (run.put call rule index slot).Reached other scope key := by
  obtain ⟨probe, hprobe, hindex, hearlier⟩ := hreached
  refine ⟨probe, ?_, (put_probeIndex _ _).trans hindex, fun earlier hlt => ?_⟩
  · rw [put_probeWindow]
    exact hprobe
  · obtain ⟨passed, hat, hused⟩ := hearlier earlier hlt
    rw [show (run.put call rule index slot).hashOf scope key = run.hashOf scope key from rfl, put_probeIndex]
    by_cases hself : run.limiter.probeIndex (run.hashOf scope key) earlier = index
    · rw [hself]
      exact ⟨slot, put_slots_self h.size, h.holds.1⟩
    · exact ⟨passed, (put_slots_ne hself).trans hat, hused⟩

/-- A key has one slot, so no other one holds it. -/
theorem Good.only (h : run.Good rules) (hputs : run.Puts rules call rule index slot)
    (hfound : run.limiter.slots[other]? = some found) (hne : other ≠ index) :
    ¬ found.Holds call.scope call.key := by
  intro hholds
  rcases hputs.origin with ⟨old, hold, hholds', _⟩ | ⟨habsent, _⟩
  · exact hne (h.unique other index found old _ _ hfound hold hholds hholds')
  · exact habsent other found hfound hholds

theorem put_ideal_self {call : RateLimitCall} {rule : RateLimitRule} {index : Nat} {slot : RateLimitSlot} :
    (run.put call rule index slot).ideal call.scope call.key =
      some (run.idealConsume call.scope call.key rule (instantMs call.now)).1 := if_pos ⟨rfl, rfl⟩

theorem put_ideal_ne {scope : RateLimitScope} {key : Bytes} (hne : ¬ (scope = call.scope ∧ key = call.key)) :
    (run.put call rule index slot).ideal scope key = run.ideal scope key := if_neg hne

/-- **Writing a slot keeps the invariant.** -/
theorem Good.put (h : run.Good rules) (hclock : run.clock ≤ call.now) (hputs : run.Puts rules call rule index slot) :
    (run.put call rule index slot).Good rules := by
  have hnow : run.nowMs ≤ instantMs call.now := instantMs_mono hclock
  obtain ⟨hused, hscope, hkey⟩ := hputs.holds
  refine ⟨h.default, ?_, ?_, ?_, ?_, ?_⟩
  · intro other found hfound hne
    rcases put_slots hfound with ⟨rfl, rfl⟩ | ⟨hother, hold⟩
    · refine ⟨rule, by rw [hscope]; exact hputs.ruled, by rw [hscope, hkey]; exact hputs.hash,
        by rw [hkey]; exact hputs.short, hputs.staleAt, hputs.bounded, hputs.begun, ?_⟩
      rw [hscope, hkey, put_ideal_self, hputs.counter]
    · obtain ⟨rule', hgood⟩ := h.slots other found hold hne
      refine ⟨rule', hgood.later rfl hnow (put_ideal_ne ?_)⟩
      rintro ⟨hscope', hkey'⟩
      exact h.only hputs hold hother ⟨hne, hscope', hkey'⟩
  · intro other found hfound hne
    rcases put_slots hfound with ⟨rfl, rfl⟩ | ⟨_, hold⟩
    · rw [hscope, hkey]
      exact hputs.reached_put hputs.reached
    · exact hputs.reached_put (h.reached other found hold hne)
  · intro other other' found found' scope key hfound hfound' hholds hholds'
    rcases put_slots hfound with ⟨rfl, rfl⟩ | ⟨hother, hold⟩ <;>
      rcases put_slots hfound' with ⟨rfl, rfl⟩ | ⟨hother', hold'⟩
    · rfl
    · exact absurd (by rw [← hscope, ← hkey, hholds.2.1, hholds.2.2]; exact hholds') (h.only hputs hold' hother')
    · exact absurd (by rw [← hscope, ← hkey, hholds'.2.1, hholds'.2.2]; exact hholds) (h.only hputs hold hother)
    · exact h.unique other other' found found' scope key hold hold' hholds hholds'
  · intro scope key counter hcounter habsent
    have hne : ¬ (scope = call.scope ∧ key = call.key) := by
      rintro ⟨rfl, rfl⟩
      exact habsent index slot (put_slots_self hputs.size) hputs.holds
    rw [put_ideal_ne hne] at hcounter
    by_cases hheld : ∃ found, run.limiter.slots[index]? = some found ∧ found.Holds scope key
    · -- The key of the slot that was taken: its counts are gone.
      obtain ⟨found, hfound, hholds⟩ := hheld
      obtain ⟨rule', hgood⟩ := h.slots index found hfound hholds.1
      rcases hputs.origin with ⟨old, hold, hholds', _⟩ | ⟨_, hfree, _⟩
      · rw [hfound, Option.some.injEq] at hold
        subst hold
        exact absurd ⟨hholds.2.1.symm.trans hholds'.2.1, hholds.2.2.symm.trans hholds'.2.2⟩ hne
      · rcases hfree found hfound with hzero | hstale
        · exact absurd hzero hholds.1
        · have hpassed := hgood.passed (instantMs_lt call.now) hstale
          have hideal := hgood.ideal
          rw [hholds.2.1, hholds.2.2, hcounter, Option.some.injEq] at hideal
          subst hideal
          exact ⟨rule', hholds.2.1 ▸ hgood.ruled, hpassed⟩
    · obtain ⟨rule', hruled, hpassed⟩ := h.absent scope key counter hcounter fun other found hfound hholds => by
        by_cases hother : other = index
        · exact hheld ⟨found, hother ▸ hfound, hholds⟩
        · exact habsent other found ((put_slots_ne hother).trans hfound) hholds
      exact ⟨rule', hruled, Nat.le_trans hpassed hnow⟩
  · intro decision hmem hoverflow
    rcases List.mem_cons.mp hmem with rfl | hmem
    · rfl
    · exact h.agree decision hmem hoverflow

theorem Good.step (h : run.Good rules) {call : RateLimitCall} {run' : RateLimitRun}
    (hstep : run.step rules call = some run') : run'.Good rules := by
  obtain ⟨hclock, rfl | ⟨rule, _, ⟨_, rfl⟩ | ⟨index, slot, hputs, rfl⟩⟩⟩ := h.step_cases hstep
  · exact h.later rfl rfl hclock h.agree
  · refine h.later rfl rfl hclock fun decision hmem hoverflow => ?_
    rcases List.mem_cons.mp hmem with rfl | hmem
    · cases hoverflow
    · exact h.agree decision hmem hoverflow
  · exact h.put hclock hputs

/-! ## Admissions in a window -/

/-- The admitted requests of a key from one instant up to another. -/
def admitted (decisions : List RateLimitDecision) (scope : RateLimitScope) (key : Bytes) (first behind : Nat) : Nat :=
  decisions.countP fun decision => decision.scope == scope && decision.key == key && decision.decision.isNone &&
    decide (first ≤ decision.nowMs) && decide (decision.nowMs < behind)

section

variable {decision : RateLimitDecision} {decisions : List RateLimitDecision} {scope : RateLimitScope} {key : Bytes}
  {first behind : Nat}

theorem admitted_cons_other (hother : ¬ (decision.scope = scope ∧ decision.key = key)) :
    admitted (decision :: decisions) scope key first behind = admitted decisions scope key first behind := by
  refine List.countP_cons_of_neg ?_
  simp only [Bool.and_eq_true, beq_iff_eq]
  exact fun h => hother h.1.1.1

theorem admitted_cons_late (hlate : behind ≤ decision.nowMs) :
    admitted (decision :: decisions) scope key first behind = admitted decisions scope key first behind := by
  refine List.countP_cons_of_neg ?_
  simp only [Bool.and_eq_true, decide_eq_true_eq]
  omega

theorem admitted_cons_refused (hrefused : decision.decision ≠ none) :
    admitted (decision :: decisions) scope key first behind = admitted decisions scope key first behind := by
  refine List.countP_cons_of_neg ?_
  simp only [Bool.and_eq_true, Option.isNone_iff_eq_none]
  exact fun h => hrefused h.1.1.2

theorem admitted_cons_admitted (hscope : decision.scope = scope) (hkey : decision.key = key)
    (hadmitted : decision.decision = none) (hfirst : first ≤ decision.nowMs) (hbehind : decision.nowMs < behind) :
    admitted (decision :: decisions) scope key first behind = admitted decisions scope key first behind + 1 := by
  refine List.countP_cons_of_pos ?_
  simp only [Bool.and_eq_true, beq_iff_eq, Option.isNone_iff_eq_none, decide_eq_true_eq]
  exact ⟨⟨⟨⟨hscope, hkey⟩, hadmitted⟩, hfirst⟩, hbehind⟩

theorem admitted_zero (hbefore : ∀ decision ∈ decisions, decision.scope = scope → decision.key = key →
    decision.nowMs < first) : admitted decisions scope key first behind = 0 := by
  refine List.countP_eq_zero.mpr fun decision hmem => ?_
  simp only [Bool.and_eq_true, beq_iff_eq, decide_eq_true_eq]
  rintro ⟨⟨⟨⟨hscope, hkey⟩, _⟩, hfirst⟩, _⟩
  have := hbefore decision hmem hscope hkey
  omega

end

/-- **What the counts say**: a slot counts the admissions of its window, and all decisions about its key that were not
made from the table are older. -/
structure Counted (rules : RateLimitRules) (run : RateLimitRun) : Prop where
  window : ∀ (index : Nat) slot rule, run.limiter.slots[index]? = some slot → slot.keyHash ≠ 0 →
    rules.ruleAt slot.scope = some rule →
    admitted run.decisions slot.scope slot.key slot.windowStartMs (slot.windowStartMs + rule.window) =
      slot.currentCount
  before : ∀ (index : Nat) slot rule, run.limiter.slots[index]? = some slot → slot.keyHash ≠ 0 →
    rules.ruleAt slot.scope = some rule → ∀ decision ∈ run.decisions, decision.scope = slot.scope →
    decision.key = slot.key → decision.nowMs < slot.windowStartMs + rule.window ∧
      (decision.overflow = true → decision.nowMs < slot.windowStartMs)
  dropped : ∀ decision ∈ run.decisions, decision.overflow = false →
    (∀ (index : Nat) slot, run.limiter.slots[index]? = some slot → ¬ slot.Holds decision.scope decision.key) →
    decision.nowMs < run.nowMs
  past : ∀ decision ∈ run.decisions, decision.nowMs ≤ run.nowMs
  blocked : ∀ decision ∈ run.decisions, decision.overflow = true → decision.nowMs = run.nowMs →
    run.Blocked decision.scope decision.key run.nowMs

theorem counted_start (routeRules : Bool) (capacity : Nat) (hashKey : UInt64 × UInt64) :
    (start rules routeRules capacity hashKey).Counted rules := by
  have hempty := (@good_start rules routeRules capacity hashKey).slots
  refine ⟨fun index slot rule hslot hused _ => ?_, nofun,
    nofun, nofun, nofun⟩
  obtain ⟨_, hgood⟩ := hempty index slot hslot hused
  have hideal := hgood.ideal
  cases hideal

/-- A blocked key is in no slot. -/
theorem Good.not_held_of_blocked (h : run.Good rules) {scope : RateLimitScope} {key : Bytes} {nowMs : Nat}
    (hblocked : run.Blocked scope key nowMs) (index : Nat) (slot : RateLimitSlot)
    (hslot : run.limiter.slots[index]? = some slot) : ¬ slot.Holds scope key := by
  rcases hblocked with (hnil | hlong) | hblocks
  · rw [hnil] at hslot
    cases hslot
  · rintro ⟨hused, rfl, rfl⟩
    obtain ⟨rule, hgood⟩ := h.slots index slot hslot hused
    exact absurd hgood.short (Nat.not_le_of_lt hlong)
  · refine @Good.not_held rules run h scope key run.probeWindow (fun earlier hearlier => ?_)
      (.inl (Nat.le_refl _)) index slot hslot
    obtain ⟨passed, hat, hused, hother, _⟩ := hblocks earlier hearlier
    exact ⟨passed, hat, hused, hother⟩

/-- An instant later, with the same table and decisions that concern no key in it. -/
theorem Counted.later (h : run.Counted rules) (hlimiter : run'.limiter = run.limiter)
    (hclock : run.clock ≤ run'.clock)
    (hdecisions : run'.decisions = run.decisions ∨ ∃ decision, run'.decisions = decision :: run.decisions ∧
      decision.overflow = true ∧ decision.nowMs = run'.nowMs ∧ run'.Blocked decision.scope decision.key run'.nowMs ∧
      ∀ (index : Nat) slot, run.limiter.slots[index]? = some slot → ¬ slot.Holds decision.scope decision.key) :
    run'.Counted rules := by
  have hnow : run.nowMs ≤ run'.nowMs := instantMs_mono hclock
  have hblocked : ∀ decision ∈ run.decisions, decision.overflow = true → decision.nowMs = run'.nowMs →
      run'.Blocked decision.scope decision.key run'.nowMs := by
    intro decision hmem hoverflow heq
    have hpast := h.past decision hmem
    have hsame : run'.nowMs = run.nowMs := by omega
    rw [hsame] at heq ⊢
    unfold Blocked probeWindow hashOf
    rw [hlimiter]
    exact h.blocked decision hmem hoverflow heq
  rcases hdecisions with hdecisions | ⟨decision, hdecisions, hoverflow, hat, hnew, hother⟩
  · refine ⟨?_, ?_, ?_, ?_, ?_⟩
    · rw [hlimiter, hdecisions]
      exact h.window
    · rw [hlimiter, hdecisions]
      exact h.before
    · rw [hlimiter, hdecisions]
      exact fun old hmem hold habsent => Nat.lt_of_lt_of_le (h.dropped old hmem hold habsent) hnow
    · rw [hdecisions]
      exact fun old hmem => Nat.le_trans (h.past old hmem) hnow
    · rw [hdecisions]
      exact hblocked
  · refine ⟨?_, ?_, ?_, ?_, ?_⟩
    · intro index slot rule hslot hused hruled
      rw [hlimiter] at hslot
      rw [hdecisions, admitted_cons_other]
      · exact h.window index slot rule hslot hused hruled
      · exact fun heq => hother index slot hslot ⟨hused, heq.1.symm, heq.2.symm⟩
    · intro index slot rule hslot hused hruled old hmem hscope hkey
      rw [hlimiter] at hslot
      rw [hdecisions] at hmem
      rcases List.mem_cons.mp hmem with rfl | hmem
      · exact absurd ⟨hused, hscope.symm, hkey.symm⟩ (hother index slot hslot)
      · exact h.before index slot rule hslot hused hruled old hmem hscope hkey
    · intro old hmem hold habsent
      rw [hdecisions] at hmem
      rw [hlimiter] at habsent
      rcases List.mem_cons.mp hmem with rfl | hmem
      · rw [hoverflow] at hold
        cases hold
      · exact Nat.lt_of_lt_of_le (h.dropped old hmem hold habsent) hnow
    · intro old hmem
      rw [hdecisions] at hmem
      rcases List.mem_cons.mp hmem with rfl | hmem
      · exact Nat.le_of_eq hat
      · exact Nat.le_trans (h.past old hmem) hnow
    · intro old hmem hold heq
      rw [hdecisions] at hmem
      rcases List.mem_cons.mp hmem with rfl | hmem
      · exact hnew
      · exact hblocked old hmem hold heq

section

variable (h : run.Puts rules call rule index slot)
include h

/-- A key that takes a slot is not blocked. -/
theorem Puts.not_blocked
    (hfree : ∀ old, run.limiter.slots[index]? = some old → old.keyHash = 0 ∨ old.stale (instantMs call.now) = true) :
    ¬ run.Blocked call.scope call.key (instantMs call.now) := by
  rintro ((hnil | hlong) | hblocks)
  · have hsize := h.size
    rw [hnil] at hsize
    exact absurd hsize (Nat.not_lt_zero _)
  · exact absurd h.short (Nat.not_le_of_lt hlong)
  · obtain ⟨probe, hprobe, rfl, _⟩ := h.reached
    obtain ⟨old, hold, hused, _, hlive⟩ := hblocks probe hprobe
    rcases hfree old hold with hzero | hstale
    · exact hused hzero
    · rw [hlive] at hstale
      cases hstale

/-- A slot just written is live. -/
theorem Puts.live
    (hinside : instantMs call.now < slot.windowStartMs + rule.window) :
    slot.stale (instantMs call.now) = false := by
  have hwindow := rule.window_lt
  have hnow := instantMs_lt call.now
  unfold RateLimitSlot.stale
  rw [Bool.and_eq_false_iff, decide_eq_false_iff_not, h.staleAt]
  right
  unfold staleAtMs
  rw [@saturatingAdd_of_le rule.window rule.window (by unfold maxWord; omega)]
  unfold saturatingAdd maxWord
  split <;> omega

/-- **At one instant a blocked key stays blocked**: the slots in its way stay live, and stay other keys'. -/
theorem Puts.blocked_put (hgood : run.Good rules)
    (hinside : instantMs call.now < slot.windowStartMs + rule.window) {scope : RateLimitScope} {key : Bytes}
    (hblocked : run.Blocked scope key (instantMs call.now)) :
    (run.put call rule index slot).Blocked scope key (instantMs call.now) := by
  have hnot := hgood.not_held_of_blocked hblocked
  rcases hblocked with (hnil | hlong) | hblocks
  · have hsize := h.size
    rw [hnil] at hsize
    exact absurd hsize (Nat.not_lt_zero _)
  · exact .inl (.inr hlong)
  right
  intro probe hprobe
  rw [put_probeWindow] at hprobe
  obtain ⟨old, hold, hused, hother, hlive⟩ := hblocks probe hprobe
  unfold RateLimiter.Blocks
  rw [show (run.put call rule index slot).hashOf scope key = run.hashOf scope key from rfl, put_probeIndex]
  by_cases hself : run.limiter.probeIndex (run.hashOf scope key) probe = index
  · rw [hself] at hold ⊢
    refine ⟨slot, put_slots_self h.size, h.holds.1, ?_, h.live hinside⟩
    rcases h.origin with ⟨held, hheld, hholds, _⟩ | ⟨_, hfree, _⟩
    · rw [← Bool.not_eq_true, keyEquals_iff]
      rintro ⟨_, hscope, hkey⟩
      exact hnot index held hheld ⟨hholds.1, hholds.2.1.trans (h.holds.2.1.symm.trans hscope),
        hholds.2.2.trans (h.holds.2.2.symm.trans hkey)⟩
    · rcases hfree old hold with hzero | hstale
      · exact absurd hzero hused
      · rw [hlive] at hstale
        cases hstale
  · exact ⟨old, (put_slots_ne hself).trans hold, hused, hother, hlive⟩

end

/-- **The window a call finds or opens** counts the earlier admissions in it, and no overflow decision about the key
was made since it began. -/
theorem Counted.rolled (h : run.Counted rules) (hclock : run.clock ≤ call.now)
    (hputs : run.Puts rules call rule index slot) :
    ∃ rolled : RateLimitCounter, slot.windowStartMs = rolled.windowStart ∧
      instantMs call.now < rolled.windowStart + rule.window ∧
      ((run.idealConsume call.scope call.key rule (instantMs call.now)).2 = none ∧
          slot.currentCount = rolled.current + 1 ∨
        (run.idealConsume call.scope call.key rule (instantMs call.now)).2 ≠ none ∧
          slot.currentCount = rolled.current) ∧
      admitted run.decisions call.scope call.key rolled.windowStart (rolled.windowStart + rule.window) =
        rolled.current ∧
      ∀ decision ∈ run.decisions, decision.scope = call.scope → decision.key = call.key →
        decision.nowMs < rolled.windowStart + rule.window ∧
          (decision.overflow = true → decision.nowMs < rolled.windowStart) := by
  have hnow : run.nowMs ≤ instantMs call.now := instantMs_mono hclock
  have hslot : ∀ counter : RateLimitCounter,
      run.idealConsume call.scope call.key rule (instantMs call.now) = counter.consume rule (instantMs call.now) →
      slot.windowStartMs = (counter.roll rule.window (instantMs call.now)).windowStart ∧
        ((run.idealConsume call.scope call.key rule (instantMs call.now)).2 = none ∧
            slot.currentCount = (counter.roll rule.window (instantMs call.now)).current + 1 ∨
          (run.idealConsume call.scope call.key rule (instantMs call.now)).2 ≠ none ∧
            slot.currentCount = (counter.roll rule.window (instantMs call.now)).current) := by
    intro counter hideal
    have hcounter := hputs.counter
    have hcases := @RateLimitCounter.consume_cases counter rule (instantMs call.now)
    rw [hideal] at hcounter ⊢
    rw [← hcounter] at hcases
    exact hcases
  -- A window that begins behind all earlier decisions counts none.
  have hfresh : ∀ rolled : RateLimitCounter, rolled.current = 0 →
      (∀ decision ∈ run.decisions, decision.scope = call.scope → decision.key = call.key →
        decision.nowMs < rolled.windowStart) →
      admitted run.decisions call.scope call.key rolled.windowStart (rolled.windowStart + rule.window) =
          rolled.current ∧
        ∀ decision ∈ run.decisions, decision.scope = call.scope → decision.key = call.key →
          decision.nowMs < rolled.windowStart + rule.window ∧
            (decision.overflow = true → decision.nowMs < rolled.windowStart) := by
    intro rolled hzero hbefore
    refine ⟨by rw [hzero, admitted_zero hbefore], fun decision hmem hscope hkey => ?_⟩
    have hlt := hbefore decision hmem hscope hkey
    exact ⟨by omega, fun _ => hlt⟩
  rcases hputs.origin with ⟨old, hold, ⟨hused, hscope, hkey⟩, hideal⟩ | ⟨habsent, hfree, hideal⟩
  · obtain ⟨hstart, hcurrent⟩ := hslot old.counter hideal
    have hruled : rules.ruleAt old.scope = some rule := by
      rw [hscope]
      exact hputs.ruled
    have hcount := h.window index old rule hold hused hruled
    have hbefore := h.before index old rule hold hused hruled
    rw [hscope, hkey] at hcount hbefore
    refine ⟨_, hstart, roll_inside rule.window_pos, hcurrent, ?_⟩
    rcases @RateLimitCounter.roll_cases old.counter rule.window (instantMs call.now) with
      ⟨_, hsame⟩ | ⟨hlater, _, hzero⟩
    · rw [hsame]
      exact ⟨hcount, hbefore⟩
    · refine hfresh _ hzero fun decision hmem hscope' hkey' => ?_
      exact Nat.lt_of_lt_of_le (hbefore decision hmem hscope' hkey').1 hlater
  · obtain ⟨hstart, hcurrent⟩ := hslot (.new (instantMs call.now)) hideal
    have hsame : (new (instantMs call.now)).roll rule.window (instantMs call.now) =
        .new (instantMs call.now) := if_pos (Nat.lt_add_of_pos_right rule.window_pos)
    rw [hsame] at hstart hcurrent
    refine ⟨_, hstart, Nat.lt_add_of_pos_right rule.window_pos, hcurrent,
      hfresh _ rfl fun decision hmem hscope hkey => ?_⟩
    show decision.nowMs < instantMs call.now
    cases hoverflow : decision.overflow with
    | false =>
      refine Nat.lt_of_lt_of_le (h.dropped decision hmem hoverflow ?_) hnow
      rw [hscope, hkey]
      exact habsent
    | true =>
      -- At one instant a blocked key stays blocked, and this one has a slot.
      refine Nat.lt_of_le_of_ne (Nat.le_trans (h.past decision hmem) hnow) fun heq => ?_
      have hpast := h.past decision hmem
      have hblocked := h.blocked decision hmem hoverflow (by omega)
      rw [hscope, hkey, show run.nowMs = instantMs call.now by omega] at hblocked
      exact hputs.not_blocked hfree hblocked

theorem Counted.put (h : run.Counted rules) (hgood : run.Good rules) (hclock : run.clock ≤ call.now)
    (hputs : run.Puts rules call rule index slot) : (run.put call rule index slot).Counted rules := by
  have hnow : run.nowMs ≤ instantMs call.now := instantMs_mono hclock
  obtain ⟨hused, hscope, hkey⟩ := hputs.holds
  obtain ⟨rolled, hstart, hinside, hcurrent, hcount, hbefore⟩ := h.rolled hclock hputs
  have hsame : ∀ rule', rules.ruleAt slot.scope = some rule' → rule' = rule := by
    intro rule' hruled
    rw [hscope, hputs.ruled, Option.some.injEq] at hruled
    exact hruled.symm
  refine ⟨?_, ?_, ?_, ?_, ?_⟩
  · intro other found rule' hfound hne hruled
    rcases put_slots hfound with ⟨rfl, rfl⟩ | ⟨hother, hold⟩
    · obtain rfl := hsame rule' hruled
      rw [hscope, hkey, hstart]
      rcases hcurrent with ⟨hadmitted, hcurrent⟩ | ⟨hrefused, hcurrent⟩
      · have hbegun := hputs.begun
        rw [hstart] at hbegun
        rw [hcurrent, ← hcount]
        exact admitted_cons_admitted rfl rfl hadmitted hbegun hinside
      · rw [hcurrent, ← hcount]
        exact admitted_cons_refused hrefused
    · rw [← h.window other found rule' hold hne hruled]
      exact admitted_cons_other fun heq => hgood.only hputs hold hother ⟨hne, heq.1.symm, heq.2.symm⟩
  · intro other found rule' hfound hne hruled decision hmem hscope' hkey'
    rcases put_slots hfound with ⟨rfl, rfl⟩ | ⟨hother, hold⟩
    · obtain rfl := hsame rule' hruled
      rw [hstart]
      rcases List.mem_cons.mp hmem with rfl | hmem
      · exact ⟨hinside, nofun⟩
      · exact hbefore decision hmem (hscope'.trans hscope) (hkey'.trans hkey)
    · rcases List.mem_cons.mp hmem with rfl | hmem
      · exact absurd ⟨hne, hscope'.symm, hkey'.symm⟩ (hgood.only hputs hold hother)
      · exact h.before other found rule' hold hne hruled decision hmem hscope' hkey'
  · intro decision hmem hoverflow habsent
    show decision.nowMs < instantMs call.now
    rcases List.mem_cons.mp hmem with rfl | hmem
    · exact absurd hputs.holds (habsent index slot (put_slots_self hputs.size))
    · by_cases hheld : ∃ found, run.limiter.slots[index]? = some found ∧ found.Holds decision.scope decision.key
      · obtain ⟨found, hfound, hholds⟩ := hheld
        obtain ⟨rule', hslot⟩ := hgood.slots index found hfound hholds.1
        have hwindow := (h.before index found rule' hfound hholds.1 hslot.ruled decision hmem hholds.2.1.symm
          hholds.2.2.symm).1
        rcases hputs.origin with ⟨old, hold, hholds', _⟩ | ⟨_, hfree, _⟩
        · rw [hfound, Option.some.injEq] at hold
          subst hold
          refine absurd hputs.holds (habsent index slot (put_slots_self hputs.size) ?_).elim
          exact ⟨hused, (hscope.trans hholds'.2.1.symm).trans hholds.2.1,
            (hkey.trans hholds'.2.2.symm).trans hholds.2.2⟩
        · rcases hfree found hfound with hzero | hstale
          · exact absurd hzero hholds.1
          · have hpassed := hslot.passed (instantMs_lt call.now) hstale
            omega
      · refine Nat.lt_of_lt_of_le (h.dropped decision hmem hoverflow fun other found hfound hholds => ?_) hnow
        by_cases hother : other = index
        · exact hheld ⟨found, hother ▸ hfound, hholds⟩
        · exact habsent other found ((put_slots_ne hother).trans hfound) hholds
  · intro decision hmem
    rcases List.mem_cons.mp hmem with rfl | hmem
    · exact Nat.le_refl _
    · exact Nat.le_trans (h.past decision hmem) hnow
  · intro decision hmem hoverflow heq
    replace heq : decision.nowMs = instantMs call.now := heq
    rcases List.mem_cons.mp hmem with rfl | hmem
    · cases hoverflow
    · have hpast := h.past decision hmem
      have hblocked := h.blocked decision hmem hoverflow (by omega)
      rw [show run.nowMs = instantMs call.now by omega] at hblocked
      exact hputs.blocked_put hgood (by rw [hstart]; exact hinside) hblocked

theorem Counted.step (h : run.Counted rules) (hgood : run.Good rules) {call : RateLimitCall} {run' : RateLimitRun}
    (hstep : run.step rules call = some run') : run'.Counted rules := by
  obtain ⟨hclock, rfl | ⟨rule, _, ⟨hblocked, rfl⟩ | ⟨index, slot, hputs, rfl⟩⟩⟩ := hgood.step_cases hstep
  · exact h.later rfl hclock (.inl rfl)
  · exact h.later rfl hclock (.inr ⟨_, rfl, rfl, rfl, hblocked, hgood.not_held_of_blocked hblocked⟩)
  · exact h.put hgood hclock hputs

/-- A window of a key: it has admitted no more than the limit, and its slot still counts it or it is over. -/
def WindowKept (run : RateLimitRun) (rule : RateLimitRule) (scope : RateLimitScope) (key : Bytes) (first : Nat) :
    Prop :=
  admitted run.decisions scope key first (first + rule.window) ≤ rule.maxRequests ∧
    ((∃ (index : Nat) (slot : RateLimitSlot), run.limiter.slots[index]? = some slot ∧ slot.Holds scope key ∧
        slot.windowStartMs = first) ∨
      first + rule.window ≤ run.nowMs)

theorem windowKept_of_slot (hgood : run.Good rules) (h : run.Counted rules) {scope : RateLimitScope} {key : Bytes}
    (hruled : rules.ruleAt scope = some rule) (hslot : run.limiter.slots[index]? = some slot)
    (hholds : slot.Holds scope key) :
    run.WindowKept rule scope key slot.windowStartMs := by
  obtain ⟨hused, rfl, rfl⟩ := hholds
  obtain ⟨rule', hslotGood⟩ := hgood.slots index slot hslot hused
  have hsame := hslotGood.ruled
  rw [hruled, Option.some.injEq] at hsame
  subst hsame
  refine ⟨?_, .inl ⟨index, slot, hslot, ⟨hused, rfl, rfl⟩, rfl⟩⟩
  rw [h.window index slot rule hslot hused hruled]
  exact hslotGood.bounded.current

/-- **A window stays within the limit** over every call. -/
theorem WindowKept.step {rule : RateLimitRule} {scope : RateLimitScope} {key : Bytes} {first : Nat}
    (h : run.WindowKept rule scope key first) (hgood : run.Good rules) (hcounted : run.Counted rules)
    (hruled : rules.ruleAt scope = some rule) {call : RateLimitCall} {run' : RateLimitRun}
    (hstep : run.step rules call = some run') : run'.WindowKept rule scope key first := by
  have hgood' := hgood.step hstep
  have hcounted' := hcounted.step hgood hstep
  obtain ⟨hkept, ⟨index, slot, hslot, hholds, rfl⟩ | hover⟩ := h
  · obtain ⟨hclock, rfl | ⟨rule', _, ⟨_, rfl⟩ | ⟨other, slot', hputs, rfl⟩⟩⟩ := hgood.step_cases hstep
    · exact windowKept_of_slot hgood' hcounted' hruled hslot hholds
    · exact windowKept_of_slot hgood' hcounted' hruled hslot hholds
    · by_cases hother : index = other
      · subst hother
        have hstart := hputs.counter
        rcases hputs.origin with ⟨old, hold, hholds', hideal⟩ | ⟨habsent, hfree, _⟩
        · -- The key's own call: in the window it is counted, behind the window it is not in it.
          rw [hslot, Option.some.injEq] at hold
          subst hold
          obtain ⟨rfl, rfl⟩ : scope = call.scope ∧ key = call.key :=
            ⟨hholds.2.1.symm.trans hholds'.2.1, hholds.2.2.symm.trans hholds'.2.2⟩
          have hsame := hputs.ruled
          rw [hruled, Option.some.injEq] at hsame
          subst hsame
          rw [hideal] at hstart
          have hcases := (@RateLimitCounter.consume_cases slot.counter rule (instantMs call.now)).1
          rw [← hstart] at hcases
          rcases @RateLimitCounter.roll_cases slot.counter rule.window (instantMs call.now) with
            ⟨_, hrolled⟩ | ⟨_, hlate, _⟩
          · rw [hrolled] at hcases
            rw [← show slot'.windowStartMs = slot.windowStartMs from hcases]
            exact windowKept_of_slot hgood' hcounted' hruled (put_slots_self hputs.size) hputs.holds
          · refine ⟨?_, .inr hlate⟩
            rw [show (run.put call rule index slot').decisions = _ :: run.decisions from rfl,
              admitted_cons_late hlate]
            exact hkept
        · -- Another key took the slot, which was stale.
          have hne : ¬ (call.scope = scope ∧ call.key = key) := by
            rintro ⟨rfl, rfl⟩
            exact habsent index slot hslot hholds
          obtain ⟨rule'', hslotGood⟩ := hgood.slots index slot hslot hholds.1
          have hsame := hslotGood.ruled
          rw [hholds.2.1, hruled, Option.some.injEq] at hsame
          subst hsame
          rcases hfree slot hslot with hzero | hstale
          · exact absurd hzero hholds.1
          · have hpassed := hslotGood.passed (instantMs_lt call.now) hstale
            refine ⟨?_, .inr (Nat.le_trans (by omega) hpassed)⟩
            rw [show (run.put call rule' index slot').decisions = _ :: run.decisions from rfl,
              admitted_cons_other hne]
            exact hkept
      · exact windowKept_of_slot hgood' hcounted' hruled ((put_slots_ne hother).trans hslot) hholds
  · obtain ⟨hclock, rfl | ⟨rule', _, ⟨_, rfl⟩ | ⟨other, slot', hputs, rfl⟩⟩⟩ := hgood.step_cases hstep
    · exact ⟨hkept, .inr (Nat.le_trans hover (instantMs_mono hclock))⟩
    · have hlate := Nat.le_trans hover (instantMs_mono hclock)
      refine ⟨?_, .inr hlate⟩
      rw [show (run.overflowed call rule').decisions = _ :: run.decisions from rfl, admitted_cons_late hlate]
      exact hkept
    · have hlate := Nat.le_trans hover (instantMs_mono hclock)
      refine ⟨?_, .inr hlate⟩
      rw [show (run.put call rule' other slot').decisions = _ :: run.decisions from rfl, admitted_cons_late hlate]
      exact hkept

/-! ## Every run -/

theorem good_reachable {routeRules : Bool} {capacity : Nat} {hashKey : UInt64 × UInt64}
    (h : (machine rules routeRules capacity hashKey).Reachable run) : run.Good rules ∧ run.Counted rules := by
  refine StateMachine.Reachable.invariant (P := fun run => run.Good rules ∧ run.Counted rules) ?_ ?_ h
  · rintro first rfl
    exact ⟨good_start routeRules capacity hashKey, counted_start routeRules capacity hashKey⟩
  · rintro before call after ⟨hgood, hcounted⟩ hstep
    exact ⟨hgood.step hstep, hcounted.step hgood hstep⟩

/-- The slot a key takes was empty or stale. -/
theorem taken_free {scope : RateLimitScope} {key : Bytes} {nowMs : Nat}
    (h : limiter.place scope key nowMs = .taken index) (hslot : limiter.slots[index]? = some slot) :
    slot.keyHash = 0 ∨ slot.stale nowMs = true := by
  by_cases hlong : limiter.slots = [] ∨ rateLimitMaxKeyBytes < key.length
  · rw [RateLimiter.place_overflow hlong] at h
    cases h
  · rw [not_or, not_lt] at hlong
    have hplaced := @RateLimiter.place_placed limiter scope key nowMs hlong.1 hlong.2
    rw [h] at hplaced
    cases hplaced with
    | taken probe stop found _ hfound hfree _ _ _ =>
      rw [hslot, Option.some.injEq] at hfound
      exact hfound ▸ hfree

/-- One request in ten milliseconds. -/
def exampleRule : RateLimitRule where
  maxRequests := 1
  window := 10
  maxRequests_pos := by decide
  maxRequests_lt := by decide
  window_pos := by decide
  window_lt := by decide

def exampleRules : RateLimitRules := { defaultRule := some exampleRule, declared := fun _ => exampleRule }

end RateLimitRun

end Ruvia.Web
