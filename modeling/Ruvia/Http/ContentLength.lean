import Ruvia.Http.FieldValues
import Ruvia.Http.UriGrammar

/-!
# `Http.ContentLength` — the Content-Length accumulator

`http_content_length_state`: the value all members read so far agree on. A line is committed only when each
of its members is accepted.
-/

namespace Ruvia.Http

open Library

inductive HttpContentLengthParseStatus where
  | ok
  | invalid
  | conflicting
  deriving DecidableEq, Repr

/-- `http_content_length_state`; the published value. -/
structure HttpContentLengthState where
  value : Option Nat := none
  deriving DecidableEq, Repr

namespace HttpContentLengthState

/-- `accumulate` one member into the value parsed so far. -/
def accumulate (item : Bytes) (value : Option Nat) : Except HttpContentLengthParseStatus (Option Nat) :=
  match fromChars (2 ^ 64) item with
  | none => .error .invalid
  | some parsed =>
    match value with
    | some v => if v ≠ parsed then .error .conflicting else .ok (some parsed)
    | none => .ok (some parsed)

/-- The visitor loop of `parse_field`, which stops at the first member that is not accepted. -/
def accumulateAll (value : Option Nat) : List Bytes → Except HttpContentLengthParseStatus (Option Nat)
  | [] => .ok value
  | item :: items =>
    match accumulate item value with
    | .error status => .error status
    | .ok value => accumulateAll value items

/-- `parse_field`; a list always has a first member, so `saw_value` always holds. -/
def parseField (state : HttpContentLengthState) (fieldValue : Bytes) :
    HttpContentLengthState × HttpContentLengthParseStatus :=
  match accumulateAll state.value (httpCommaSeparatedQuotedFieldItems fieldValue) with
  | .error status => (state, status)
  | .ok value => (⟨value⟩, .ok)

/-- The members `items` all spell the length `n`. -/
def AllSpell (items : List Bytes) (n : Nat) : Prop :=
  ∀ item ∈ items, item ≠ [] ∧ (∀ b ∈ item, isDigit b = true) ∧ decimalValue item = n

theorem accumulate_eq_ok_iff {item : Bytes} {value value' : Option Nat} :
    accumulate item value = .ok value' ↔
      ∃ n, fromChars (2 ^ 64) item = some n ∧ value' = some n ∧ ∀ v ∈ value, v = n := by
  unfold accumulate
  cases fromChars (2 ^ 64) item with
  | none => simp
  | some parsed =>
    cases value with
    | none => simp [eq_comm]
    | some v =>
      by_cases hv : v = parsed
      · simp [hv, eq_comm]
      · simp [hv]

/-- **Accepted members agree**, with each other and with the value there was. -/
theorem accumulateAll_ok {items : List Bytes} {value value' : Option Nat}
    (h : accumulateAll value items = .ok value') :
    (∀ v ∈ value, value' = some v) ∧ (items ≠ [] → value'.isSome) ∧
      (∀ n ∈ value', AllSpell items n ∧ (items ≠ [] → n < 2 ^ 64)) := by
  induction items generalizing value with
  | nil =>
    obtain rfl : value = value' := by simpa [accumulateAll] using h
    exact ⟨fun v hv => hv, by simp, fun n _ => ⟨by simp [AllSpell], by simp⟩⟩
  | cons item items ih =>
    rw [accumulateAll] at h
    cases hacc : accumulate item value with
    | error status => simp [hacc] at h
    | ok next =>
      simp only [hacc] at h
      obtain ⟨n, hn, rfl, hagree⟩ := accumulate_eq_ok_iff.mp hacc
      obtain ⟨hkeep, _, hall⟩ := ih h
      have hvalue : value' = some n := hkeep n rfl
      subst hvalue
      obtain ⟨hne, hdigits, hval, hlt⟩ := fromChars_eq_some_iff.mp hn
      refine ⟨fun v hv => by rw [hagree v hv], by simp, fun m hm => ?_⟩
      obtain rfl : n = m := by simpa using hm
      refine ⟨fun i hi => ?_, fun _ => hlt⟩
      rcases List.mem_cons.mp hi with rfl | hi
      · exact ⟨hne, hdigits, hval⟩
      · exact (hall n rfl).1 i hi

/-- The loop never stops with the status `ok`. -/
theorem accumulateAll_ne_ok (items : List Bytes) (value : Option Nat) : accumulateAll value items ≠ .error .ok := by
  induction items generalizing value with
  | nil => simp [accumulateAll]
  | cons item items ih =>
    rw [accumulateAll]
    cases hacc : accumulate item value with
    | ok next => exact ih next
    | error status =>
      unfold accumulate at hacc
      split at hacc
      · cases hacc
        simp
      · split at hacc
        · split at hacc
          · cases hacc
            simp
          · cases hacc
        · cases hacc

/-! ## The lines read so far -/

/-- The state after `lines`: no value iff there was no line, else the one length all their members spell. -/
def Reads (state : HttpContentLengthState) (lines : List Bytes) : Prop :=
  match state.value with
  | none => lines = []
  | some n =>
    lines ≠ [] ∧ n < 2 ^ 64 ∧ ∀ line ∈ lines, AllSpell (httpCommaSeparatedQuotedFieldItems line) n

theorem items_ne_nil (line : Bytes) : httpCommaSeparatedQuotedFieldItems line ≠ [] := by
  simp [httpCommaSeparatedQuotedFieldItems, httpSplitUnquoted]

theorem parseField_reads {state state' : HttpContentLengthState} {lines : List Bytes} {line : Bytes}
    (hreads : state.Reads lines) (h : state.parseField line = (state', .ok)) :
    state'.Reads (lines ++ [line]) := by
  unfold parseField at h
  cases hacc : accumulateAll state.value (httpCommaSeparatedQuotedFieldItems line) with
  | error status =>
    simp only [hacc, Prod.mk.injEq] at h
    exact absurd (h.2 ▸ hacc) (accumulateAll_ne_ok _ _)
  | ok value =>
    simp only [hacc, Prod.mk.injEq] at h
    obtain ⟨hkeep, hsome, hall⟩ := accumulateAll_ok hacc
    obtain ⟨n, hn⟩ := Option.isSome_iff_exists.mp (hsome (items_ne_nil line))
    obtain ⟨hspell, hlt⟩ := hall n hn
    subst hn
    rw [← h.1]
    refine ⟨by simp, hlt (items_ne_nil line), fun l hl => ?_⟩
    rcases List.mem_append.mp hl with hl | hl
    · -- an earlier line: its members spelled the value this line had to agree with
      cases hv : state.value with
      | none =>
        simp only [Reads, hv] at hreads
        simp [hreads] at hl
      | some v =>
        simp only [Reads, hv] at hreads
        obtain rfl : n = v := by simpa using hkeep v hv
        exact hreads.2.2 l hl
    · obtain rfl : l = line := by simpa using hl
      exact hspell

end HttpContentLengthState

end Ruvia.Http
