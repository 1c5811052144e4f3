import Ruvia.Web.RateLimiter

/-!
# `Web.RateLimitEstimate` — the sliding-window counts of one key

What a slot computes in words, said in numbers: a counter admits while the previous count, weighted by the part of the
window still ahead, and the current one stay below the limit. A slot's counts are such a counter (`consume_counter`).
-/

namespace Ruvia.Web

/-- The counts of a key: its current window, and the admissions in it and in the one before. -/
structure RateLimitCounter where
  windowStart : Nat
  current : Nat
  previous : Nat
  deriving DecidableEq, Repr

namespace RateLimitCounter

/-- The counts of a key that was not seen before. -/
def new (now : Nat) : RateLimitCounter := { windowStart := now, current := 0, previous := 0 }

/-- The counts at an instant: after one window the current count is the previous one, after two none is left. -/
def roll (counter : RateLimitCounter) (window now : Nat) : RateLimitCounter :=
  if now < counter.windowStart + window then counter
  else if now < counter.windowStart + 2 * window then
    { windowStart := counter.windowStart + window, current := 0, previous := counter.current }
  else new now

/-- The part of the current window still ahead. -/
def remaining (counter : RateLimitCounter) (window now : Nat) : Nat := window - (now - counter.windowStart)

def Admits (counter : RateLimitCounter) (rule : RateLimitRule) (now : Nat) : Prop :=
  counter.previous * counter.remaining rule.window now + counter.current * rule.window <
    rule.maxRequests * rule.window

instance (counter : RateLimitCounter) (rule : RateLimitRule) (now : Nat) : Decidable (counter.Admits rule now) :=
  inferInstanceAs (Decidable (_ < _))

/-- The delays a refusal names: until the next admission, and until the counts are zero. -/
def refusal (counter : RateLimitCounter) (rule : RateLimitRule) (now : Nat) : RateLimitRejection :=
  let remaining := counter.remaining rule.window now
  { retryAfterMs :=
      if rule.maxRequests ≤ counter.current then remaining + 1
      else remaining - ((rule.maxRequests - counter.current) * rule.window - 1) / counter.previous
    resetAfterMs := if counter.current = 0 then remaining else remaining + rule.window
    maxRequests := rule.maxRequests }

/-- **The decision of the ideal limiter** about one more request. -/
def consume (counter : RateLimitCounter) (rule : RateLimitRule) (now : Nat) :
    RateLimitCounter × Option RateLimitRejection :=
  let rolled := counter.roll rule.window now
  if rolled.Admits rule now then ({ rolled with current := rolled.current + 1 }, none)
  else (rolled, some (rolled.refusal rule now))

variable {counter : RateLimitCounter} {rule : RateLimitRule} {window now : Nat}

/-- An instant is inside the window it rolls to, if the window had begun. -/
theorem roll_inside (hwindow : 0 < window) : now < (counter.roll window now).windowStart + window := by
  unfold roll new
  split
  · assumption
  · split
    all_goals
      dsimp only
      omega

theorem roll_begun (hbegun : counter.windowStart ≤ now) : (counter.roll window now).windowStart ≤ now := by
  unfold roll new
  split
  · assumption
  · split
    · dsimp only
      omega
    · exact Nat.le_refl now

/-- Counts whose two windows have passed are those of a new key. -/
theorem roll_stale (hstale : counter.windowStart + 2 * window ≤ now) : counter.roll window now = new now := by
  unfold roll
  rw [if_neg (by omega), if_neg (by omega)]

theorem consume_stale (hstale : counter.windowStart + 2 * rule.window ≤ now) :
    counter.consume rule now = (new now).consume rule now := by
  have hnew : (new now).roll rule.window now = new now := by
    exact if_pos (Nat.lt_add_of_pos_right rule.window_pos)
  unfold consume
  rw [roll_stale hstale, hnew]

theorem admits_current_lt (hadmits : counter.Admits rule now) : counter.current < rule.maxRequests := by
  exact Nat.lt_of_mul_lt_mul_right (Nat.lt_of_le_of_lt (Nat.le_add_left _ _) hadmits)

/-- The comparison the limiter makes, with room in the current window. -/
theorem admits_iff : counter.Admits rule now ↔ counter.current < rule.maxRequests ∧
    counter.previous * counter.remaining rule.window now < (rule.maxRequests - counter.current) * rule.window := by
  constructor
  · intro hadmits
    refine ⟨admits_current_lt hadmits, ?_⟩
    unfold Admits at hadmits
    rw [Nat.sub_mul]
    omega
  · rintro ⟨hroom, hless⟩
    rw [Nat.sub_mul] at hless
    unfold Admits
    omega

/-- A decision counts an admission in the window it rolled to. -/
theorem consume_cases : (counter.consume rule now).1.windowStart = (counter.roll rule.window now).windowStart ∧
    ((counter.consume rule now).2 = none ∧
        (counter.consume rule now).1.current = (counter.roll rule.window now).current + 1 ∨
      (counter.consume rule now).2 ≠ none ∧
        (counter.consume rule now).1.current = (counter.roll rule.window now).current) := by
  unfold consume
  dsimp only
  split
  · exact ⟨rfl, .inl ⟨rfl, rfl⟩⟩
  · exact ⟨rfl, .inr ⟨Option.some_ne_none _, rfl⟩⟩

/-- The window stays, or a later one begins without admissions. -/
theorem roll_cases : now < counter.windowStart + window ∧ counter.roll window now = counter ∨
    counter.windowStart + window ≤ (counter.roll window now).windowStart ∧
      counter.windowStart + window ≤ now ∧ (counter.roll window now).current = 0 := by
  unfold roll new
  split
  · exact .inl ⟨‹_›, rfl⟩
  · right
    split
    · exact ⟨Nat.le_refl _, by omega, rfl⟩
    · exact ⟨by dsimp only; omega, by omega, rfl⟩

/-- The counts stay within the limit. -/
structure Bounded (counter : RateLimitCounter) (rule : RateLimitRule) : Prop where
  current : counter.current ≤ rule.maxRequests
  previous : counter.previous ≤ rule.maxRequests

theorem Bounded.new : (new now).Bounded rule := ⟨Nat.zero_le _, Nat.zero_le _⟩

theorem Bounded.roll (h : counter.Bounded rule) : (counter.roll window now).Bounded rule := by
  unfold RateLimitCounter.roll
  split
  · exact h
  · split
    · exact ⟨Nat.zero_le _, h.current⟩
    · exact .new

theorem Bounded.consume (h : counter.Bounded rule) : (counter.consume rule now).1.Bounded rule := by
  unfold RateLimitCounter.consume
  dsimp only
  split
  · exact ⟨admits_current_lt ‹_›, h.roll.previous⟩
  · exact h.roll

end RateLimitCounter

namespace RateLimitSlot

variable {slot : RateLimitSlot} {rule : RateLimitRule} {nowMs : Nat}

def counter (slot : RateLimitSlot) : RateLimitCounter :=
  { windowStart := slot.windowStartMs, current := slot.currentCount, previous := slot.previousCount }

theorem elapsedMs_eq (windowStartMs nowMs : Nat) : elapsedMs windowStartMs nowMs = nowMs - windowStartMs := by
  unfold elapsedMs
  split <;> omega

theorem rollWindow_counter {windowMs : Nat} (hwindow : 0 < windowMs) :
    (slot.rollWindow windowMs nowMs).counter = slot.counter.roll windowMs nowMs := by
  unfold rollWindow RateLimitCounter.roll RateLimitCounter.new counter
  rw [elapsedMs_eq]
  by_cases hinside : nowMs < slot.windowStartMs + windowMs
  · rw [if_pos (by omega), if_pos hinside]
  · rw [if_neg (by omega), if_neg hinside]
    by_cases hnext : nowMs < slot.windowStartMs + 2 * windowMs
    · rw [if_pos (by omega), if_pos hnext]
    · rw [if_neg (by omega), if_neg hnext]

/-- Rolling changes neither the key nor when the counts are gone. -/
theorem rollWindow_rest (windowMs : Nat) :
    (slot.rollWindow windowMs nowMs).scope = slot.scope ∧ (slot.rollWindow windowMs nowMs).keyHash = slot.keyHash ∧
      (slot.rollWindow windowMs nowMs).key = slot.key ∧
      (slot.staleAtMs = Ruvia.Web.staleAtMs slot.windowStartMs windowMs →
        (slot.rollWindow windowMs nowMs).staleAtMs =
          Ruvia.Web.staleAtMs (slot.rollWindow windowMs nowMs).windowStartMs windowMs) := by
  unfold rollWindow
  dsimp only
  split
  · exact ⟨rfl, rfl, rfl, id⟩
  · split <;> exact ⟨rfl, rfl, rfl, fun _ => rfl⟩

/-- The wide comparison is the one of the products. -/
theorem less_iff_admits {counter : RateLimitCounter} (hbounded : counter.Bounded rule) :
    (counter.current < rule.maxRequests ∧
      (multiplyWide counter.previous (counter.remaining rule.window nowMs)).less
        (multiplyWide (rule.maxRequests - counter.current) rule.window) = true) ↔ counter.Admits rule nowMs := by
  have hlimit := rule.maxRequests_lt
  have hwindow := rule.window_lt
  have hprevious := hbounded.previous
  have hremaining : counter.remaining rule.window nowMs ≤ rule.window := Nat.sub_le _ _
  rw [RateLimitCounter.admits_iff, WideUnsigned.less_iff (multiplyWide_low_lt _ _) (multiplyWide_low_lt _ _),
    multiplyWide_value (by omega) (by omega), multiplyWide_value (by omega) (by omega)]

/-- **The wide division is in its domain**, when a refusal with room left asks for it. -/
theorem division_defined {counter : RateLimitCounter} (hrefused : ¬ counter.Admits rule nowMs)
    (hroom : counter.current < rule.maxRequests) :
    (multiplyWide (rule.maxRequests - counter.current) rule.window).value ≠ 0 ∧
      (widePredecessor (multiplyWide (rule.maxRequests - counter.current) rule.window)).value =
        (rule.maxRequests - counter.current) * rule.window - 1 ∧
      (widePredecessor (multiplyWide (rule.maxRequests - counter.current) rule.window)).high < counter.previous := by
  have hlimit := rule.maxRequests_lt
  have hwindow := rule.window_lt
  have hremaining : counter.remaining rule.window nowMs ≤ rule.window := Nat.sub_le _ _
  have hproduct := @multiplyWide_value (rule.maxRequests - counter.current) rule.window (by omega) (by omega)
  have hpositive := Nat.mul_pos (Nat.sub_pos_of_lt hroom) rule.window_pos
  have hfade : (rule.maxRequests - counter.current) * rule.window ≤
      counter.previous * counter.remaining rule.window nowMs := by
    rw [RateLimitCounter.admits_iff] at hrefused
    omega
  have hnonzero : (multiplyWide (rule.maxRequests - counter.current) rule.window).value ≠ 0 := by
    omega
  have hvalue : (widePredecessor (multiplyWide (rule.maxRequests - counter.current) rule.window)).value =
      (rule.maxRequests - counter.current) * rule.window - 1 := by
    rw [widePredecessor_value hnonzero, hproduct]
  have hscaled : counter.previous * counter.remaining rule.window nowMs ≤ counter.previous * 2 ^ 63 :=
    Nat.mul_le_mul_left _ (by omega)
  refine ⟨hnonzero, hvalue, ?_⟩
  -- The dividend is below the previous count times 2^63, so its high word is below the divisor.
  unfold WideUnsigned.value at hvalue
  omega

/-- **The refusal names the delays of the counter**: no sum saturates, and the quotient fits a word. -/
theorem refusal_counter {counter : RateLimitCounter} (hbounded : counter.Bounded rule)
    (hrefused : ¬ counter.Admits rule nowMs) :
    Ruvia.Web.refusal rule counter.previous counter.current rule.window (counter.remaining rule.window nowMs) =
      counter.refusal rule nowMs := by
  have hlimit := rule.maxRequests_lt
  have hwindow := rule.window_lt
  have hprevious := hbounded.previous
  have hremaining : counter.remaining rule.window nowMs ≤ rule.window := Nat.sub_le _ _
  have hreset : saturatingAdd (counter.remaining rule.window nowMs) rule.window =
      counter.remaining rule.window nowMs + rule.window := saturatingAdd_of_le (by unfold maxWord; omega)
  have hretry : saturatingAdd (counter.remaining rule.window nowMs) 1 =
      counter.remaining rule.window nowMs + 1 := saturatingAdd_of_le (by unfold maxWord; omega)
  unfold Ruvia.Web.refusal RateLimitCounter.refusal
  dsimp only
  rw [hreset, hretry]
  by_cases hroom : rule.maxRequests ≤ counter.current
  · rw [if_pos hroom, if_pos hroom]
  · rw [if_neg hroom, if_neg hroom]
    obtain ⟨-, hvalue, hhigh⟩ := division_defined hrefused (Nat.lt_of_not_le hroom)
    rw [divideWide_eq (widePredecessor_low_lt (multiplyWide_low_lt _ _)) hhigh (by omega), hvalue]

/-- **A slot's decision is its counter's.** -/
theorem consume_counter (hbounded : slot.counter.Bounded rule) :
    (slot.consume rule nowMs).1.counter = (slot.counter.consume rule nowMs).1 ∧
      (slot.consume rule nowMs).2 = (slot.counter.consume rule nowMs).2 := by
  have hrolled : (slot.rollWindow rule.window nowMs).counter = slot.counter.roll rule.window nowMs :=
    rollWindow_counter rule.window_pos
  have hbounds : (slot.rollWindow rule.window nowMs).counter.Bounded rule := by
    rw [hrolled]
    exact hbounded.roll
  have hremaining : rule.window - elapsedMs (slot.rollWindow rule.window nowMs).windowStartMs nowMs =
      (slot.rollWindow rule.window nowMs).counter.remaining rule.window nowMs := by
    rw [elapsedMs_eq]
    rfl
  unfold consume RateLimitCounter.consume
  dsimp only
  rw [hremaining, ← hrolled]
  split
  · rename_i hless
    rw [if_pos ((less_iff_admits hbounds).mp hless)]
    exact ⟨rfl, rfl⟩
  · rename_i hless
    have hrefused := mt (less_iff_admits hbounds).mpr hless
    rw [if_neg hrefused]
    exact ⟨rfl, congrArg some (refusal_counter hbounds hrefused)⟩

theorem consume_rest :
    (slot.consume rule nowMs).1.scope = slot.scope ∧ (slot.consume rule nowMs).1.keyHash = slot.keyHash ∧
      (slot.consume rule nowMs).1.key = slot.key ∧
      (slot.staleAtMs = Ruvia.Web.staleAtMs slot.windowStartMs rule.window →
        (slot.consume rule nowMs).1.staleAtMs =
          Ruvia.Web.staleAtMs (slot.consume rule nowMs).1.windowStartMs rule.window) := by
  have hrest := @rollWindow_rest slot nowMs rule.window
  unfold consume
  dsimp only
  split <;> exact hrest

end RateLimitSlot

end Ruvia.Web
