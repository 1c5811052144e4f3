import Mathlib.Order.Basic
import Ruvia.Library.ByteString
import Ruvia.Web.RateLimitArithmetic

/-!
# `Web.RateLimiter` — the per-worker rate-limit table

`rate_limiter`: slots found by probing a bounded window behind the hash of a key, each with the sliding-window counts
of its key. A slot whose two windows have passed is taken over in place. Instants are milliseconds; `slots` is the
vector the constructor sized, a power of two or empty.
-/

namespace Ruvia.Web

open Library

/-! ## Rules and keys -/

inductive RateLimitOverflowPolicy where
  | deny
  | allow
  deriving DecidableEq, Repr

/-- `rate_limit_rule`, as `set_rate_limit` and the assertions of `rate_limit` let it pass. -/
structure RateLimitRule where
  maxRequests : Nat
  window : Nat
  overflowPolicy : RateLimitOverflowPolicy := .deny
  maxRequests_pos : 0 < maxRequests
  maxRequests_lt : maxRequests < 2 ^ 64
  window_pos : 0 < window
  window_lt : window < 2 ^ 63

structure RateLimitRejection where
  retryAfterMs : Nat
  resetAfterMs : Nat
  maxRequests : Nat
  deriving DecidableEq, Repr

/-- The route a rule guards and the address of its declaration. -/
structure RateLimitScope where
  route : UInt64
  rule : UInt64
  deriving DecidableEq, Repr

def defaultScope : RateLimitScope := { route := 1, rule := 0 }

def fallbackRouteScope : UInt64 := 2

def rateLimitMaxKeyBytes : Nat := 64

def rateLimitProbeWindow : Nat := 32

/-! ## The keyed hash -/

def loadLittleEndian (bytes : Bytes) : UInt64 :=
  bytes.zipIdx.foldl (fun value entry => value ||| entry.1.toUInt64 <<< UInt64.ofNat (8 * entry.2)) 0

def storeLittleEndian (value : UInt64) : Bytes :=
  (List.range 8).map fun index => (value >>> UInt64.ofNat (8 * index)).toUInt8

def rotl (value shift : UInt64) : UInt64 := value <<< shift ||| value >>> (64 - shift)

structure SiphashState where
  v0 : UInt64
  v1 : UInt64
  v2 : UInt64
  v3 : UInt64

namespace SiphashState

def round (state : SiphashState) : SiphashState :=
  let v0 := state.v0 + state.v1
  let v1 := rotl state.v1 13 ^^^ v0
  let v0 := rotl v0 32
  let v2 := state.v2 + state.v3
  let v3 := rotl state.v3 16 ^^^ v2
  let v0 := v0 + v3
  let v3 := rotl v3 21 ^^^ v0
  let v2 := v2 + v1
  let v1 := rotl v1 17 ^^^ v2
  { v0 := v0, v1 := v1, v2 := rotl v2 32, v3 := v3 }

def compress (state : SiphashState) (word : UInt64) : SiphashState :=
  let rounded := { state with v3 := state.v3 ^^^ word }.round
  { rounded with v0 := rounded.v0 ^^^ word }

end SiphashState

/-- The whole words of a message, and what is behind them. -/
def compressWords : Nat → SiphashState → Bytes → SiphashState × Bytes
  | 0, state, message => (state, message)
  | words + 1, state, message =>
    compressWords words (state.compress (loadLittleEndian (message.take 8))) (message.drop 8)

def siphash13 (key : UInt64 × UInt64) (message : Bytes) : UInt64 :=
  let state : SiphashState :=
    { v0 := key.1 ^^^ 0x736f6d6570736575, v1 := key.2 ^^^ 0x646f72616e646f6d,
      v2 := key.1 ^^^ 0x6c7967656e657261, v3 := key.2 ^^^ 0x7465646279746573 }
  let words := compressWords (message.length / 8) state message
  let state := words.1.compress (UInt64.ofNat message.length <<< 56 ||| loadLittleEndian words.2)
  let state := ({ state with v2 := state.v2 ^^^ 0xff }).round.round.round
  state.v0 ^^^ state.v1 ^^^ state.v2 ^^^ state.v3

/-- The hash a key is placed with; never zero, which marks an empty slot. -/
def rateLimitKeyHash (hashKey : UInt64 × UInt64) (scope : RateLimitScope) (key : Bytes) : UInt64 :=
  let hash := siphash13 hashKey (storeLittleEndian scope.route ++ storeLittleEndian scope.rule ++ key)
  if hash = 0 then 1 else hash

theorem rateLimitKeyHash_ne_zero (hashKey : UInt64 × UInt64) (scope : RateLimitScope) (key : Bytes) :
    rateLimitKeyHash hashKey scope key ≠ 0 := by
  unfold rateLimitKeyHash
  dsimp only
  split
  · decide
  · assumption

/-! ## Slots -/

/-- `rate_limit_slot`; key hash zero marks an empty one. -/
structure RateLimitSlot where
  scope : RateLimitScope := { route := 0, rule := 0 }
  keyHash : UInt64 := 0
  windowStartMs : Nat := 0
  staleAtMs : Nat := 0
  currentCount : Nat := 0
  previousCount : Nat := 0
  key : Bytes := []

/-- Instants before the clock's epoch read as the epoch. -/
def instantMs (now : Int64) : Nat :=
  let nowMs := now.toInt.tdiv 1000000
  if nowMs ≤ 0 then 0 else nowMs.toNat

def staleAtMs (windowStartMs windowMs : Nat) : Nat :=
  saturatingAdd windowStartMs (saturatingAdd windowMs windowMs)

def elapsedMs (windowStartMs nowMs : Nat) : Nat := if nowMs ≤ windowStartMs then 0 else nowMs - windowStartMs

namespace RateLimitSlot

def keyEquals (slot : RateLimitSlot) (scope : RateLimitScope) (key : Bytes) (hash : UInt64) : Bool :=
  slot.keyHash == hash && slot.scope == scope && slot.key == key

def stale (slot : RateLimitSlot) (nowMs : Nat) : Bool := slot.keyHash != 0 && slot.staleAtMs ≤ nowMs

/-- Moves the key to the window containing `nowMs`. -/
def rollWindow (slot : RateLimitSlot) (windowMs nowMs : Nat) : RateLimitSlot :=
  let elapsed := elapsedMs slot.windowStartMs nowMs
  if elapsed < windowMs then slot
  else
    let rolled :=
      if elapsed - windowMs < windowMs then
        { slot with previousCount := slot.currentCount, windowStartMs := slot.windowStartMs + windowMs }
      else { slot with previousCount := 0, windowStartMs := nowMs }
    { rolled with currentCount := 0, staleAtMs := Ruvia.Web.staleAtMs rolled.windowStartMs windowMs }

end RateLimitSlot

def refusal (rule : RateLimitRule) (previous current windowMs remainingMs : Nat) : RateLimitRejection :=
  let retryAfterMs :=
    if rule.maxRequests ≤ current then saturatingAdd remainingMs 1
    else
      let passingRemainingMs :=
        divideWide (widePredecessor (multiplyWide (rule.maxRequests - current) windowMs)) previous
      remainingMs - passingRemainingMs
  { retryAfterMs := retryAfterMs
    resetAfterMs := if current = 0 then remainingMs else saturatingAdd remainingMs windowMs
    maxRequests := rule.maxRequests }

namespace RateLimitSlot

/-- Admits, or refuses and leaves the counts alone. -/
def consume (slot : RateLimitSlot) (rule : RateLimitRule) (nowMs : Nat) :
    RateLimitSlot × Option RateLimitRejection :=
  let windowMs := rule.window
  let rolled := slot.rollWindow windowMs nowMs
  let remainingMs := windowMs - elapsedMs rolled.windowStartMs nowMs
  let limit := rule.maxRequests
  let previous := rolled.previousCount
  let current := rolled.currentCount
  if current < limit ∧ (multiplyWide previous remainingMs).less (multiplyWide (limit - current) windowMs) = true then
    ({ rolled with currentCount := current + 1 }, none)
  else (rolled, some (refusal rule previous current windowMs remainingMs))

end RateLimitSlot

/-- The slot `consume_new_key` prepares. -/
def newKeySlot (scope : RateLimitScope) (key : Bytes) (hash : UInt64) (rule : RateLimitRule) (nowMs : Nat) :
    RateLimitSlot :=
  { scope := scope, keyHash := hash, windowStartMs := nowMs, staleAtMs := staleAtMs nowMs rule.window,
    currentCount := 0, previousCount := 0, key := key }

def consumeNewKey (scope : RateLimitScope) (key : Bytes) (hash : UInt64) (rule : RateLimitRule) (nowMs : Nat) :
    RateLimitSlot × Option RateLimitRejection :=
  (newKeySlot scope key hash rule nowMs).consume rule nowMs

def overflowDecision (rule : RateLimitRule) : Option RateLimitRejection :=
  match rule.overflowPolicy with
  | .allow => none
  | .deny => some { retryAfterMs := 1, resetAfterMs := 1, maxRequests := rule.maxRequests }

/-! ## The table -/

structure RateLimiter where
  defaultRule : Option RateLimitRule
  slots : List RateLimitSlot
  hashKey : UInt64 × UInt64

/-- Where the probing of a key ends: at its slot, at one it takes, or at none. -/
inductive RateLimitPlacement where
  | held (index : Nat)
  | taken (index : Nat)
  | overflow
  deriving DecidableEq, Repr

namespace RateLimiter

/-- The constructor; the hash key is drawn at random. -/
def new (defaultRule : Option RateLimitRule) (routeRules : Bool) (capacity : Nat) (hashKey : UInt64 × UInt64) :
    RateLimiter :=
  { defaultRule := defaultRule
    slots := if defaultRule.isSome || routeRules then List.replicate capacity {} else []
    hashKey := hashKey }

/-- The slot a probe looks at. -/
def probeIndex (limiter : RateLimiter) (hash : UInt64) (probe : Nat) : Nat :=
  let mask := limiter.slots.length - 1
  ((hash.toNat &&& mask) + probe) &&& mask

/-- The probing loop, from a probe on. -/
def placeFrom (limiter : RateLimiter) (scope : RateLimitScope) (key : Bytes) (hash : UInt64) (nowMs : Nat) :
    Nat → Nat → Option Nat → RateLimitPlacement
  | 0, _, reclaimable =>
    match reclaimable with
    | some index => .taken index
    | none => .overflow
  | probes + 1, probe, reclaimable =>
    let index := limiter.probeIndex hash probe
    match limiter.slots[index]? with
    | none => .overflow
    | some slot =>
      if slot.keyHash = 0 then .taken (reclaimable.getD index)
      else if slot.keyEquals scope key hash then .held index
      else
        placeFrom limiter scope key hash nowMs probes (probe + 1)
          (if reclaimable.isNone && slot.stale nowMs then some index else reclaimable)

def place (limiter : RateLimiter) (scope : RateLimitScope) (key : Bytes) (nowMs : Nat) : RateLimitPlacement :=
  if limiter.slots.isEmpty ∨ rateLimitMaxKeyBytes < key.length then .overflow
  else
    limiter.placeFrom scope key (rateLimitKeyHash limiter.hashKey scope key) nowMs
      (min limiter.slots.length rateLimitProbeWindow) 0 none

def allow (limiter : RateLimiter) (scope : RateLimitScope) (key : Bytes) (rule : RateLimitRule) (nowMs : Nat) :
    RateLimiter × Option RateLimitRejection :=
  match limiter.place scope key nowMs with
  | .held index =>
    let consumed := (limiter.slots.getD index {}).consume rule nowMs
    ({ limiter with slots := limiter.slots.set index consumed.1 }, consumed.2)
  | .taken index =>
    let consumed := consumeNewKey scope key (rateLimitKeyHash limiter.hashKey scope key) rule nowMs
    ({ limiter with slots := limiter.slots.set index consumed.1 }, consumed.2)
  | .overflow => (limiter, overflowDecision rule)

def allowDefault (limiter : RateLimiter) (remoteAddress : Bytes) (now : Int64) :
    RateLimiter × Option RateLimitRejection :=
  match limiter.defaultRule with
  | some rule => limiter.allow defaultScope remoteAddress rule (instantMs now)
  | none => (limiter, none)

/-- The scope of a rule declared at an address on a route. -/
def routeScope (route declaration : UInt64) : RateLimitScope :=
  { route := if route = 0 then fallbackRouteScope else route, rule := declaration }

def allowRoute (limiter : RateLimiter) (route declaration : UInt64) (remoteAddress : Bytes) (rule : RateLimitRule)
    (now : Int64) : RateLimiter × Option RateLimitRejection :=
  limiter.allow (routeScope route declaration) remoteAddress rule (instantMs now)

end RateLimiter

end Ruvia.Web
