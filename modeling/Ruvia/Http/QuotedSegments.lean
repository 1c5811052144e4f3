import Ruvia.Http.FieldValues

/-!
# `Http.QuotedSegments` — what a text put in front does to a quote-aware split

`httpSplitUnquoted` is a search that starts anew behind each delimiter. Byte by byte it is `segments`, a recursion
with the state of the scan (`QuoteState`), and that state is all a front part of the text leaves to the rest of it: a
front that ends outside a quoted-string is split apart (`segments_append`), and one that ends inside takes what
follows into its last segment (`segments_append_quoted`).
-/

namespace Ruvia.Http

open Library

/-- Where in a text with quoted-strings the scan is. -/
inductive QuoteState where
  | outside
  | inside
  | escaped
  deriving DecidableEq, Repr

def QuoteState.step : QuoteState → UInt8 → QuoteState
  | .outside, ch => if ch = dquote then .inside else .outside
  | .inside, ch => if ch = backslash then .escaped else if ch = dquote then .outside else .inside
  | .escaped, _ => .inside

/-- The state behind a text. -/
def QuoteState.behind (state : QuoteState) (value : Bytes) : QuoteState := value.foldl QuoteState.step state

/-- Every quoted-string of the text is closed. -/
def QuotesClosed (value : Bytes) : Prop := QuoteState.outside.behind value = .outside

instance : DecidablePred QuotesClosed := fun value =>
  inferInstanceAs (Decidable (QuoteState.outside.behind value = .outside))

/-- `front` put before the first of the segments. -/
def prependFirst (front : UInt8) : List Bytes → List Bytes
  | [] => [[front]]
  | first :: others => (front :: first) :: others

/-- The segments of a text between unquoted delimiters. -/
def segments (delimiter : UInt8) (state : QuoteState) : Bytes → List Bytes
  | [] => [[]]
  | ch :: rest =>
    if state = .outside ∧ ch = delimiter then [] :: segments delimiter .outside rest
    else prependFirst ch (segments delimiter (state.step ch) rest)

section

variable {delimiter byte : UInt8} {state : QuoteState} {value tail : Bytes} {parts : List Bytes}

theorem segments_cons : segments delimiter state (byte :: value) =
    if state = .outside ∧ byte = delimiter then [] :: segments delimiter .outside value
    else prependFirst byte (segments delimiter (state.step byte) value) := rfl

theorem prependFirst_ne_nil : prependFirst byte parts ≠ [] := by
  cases parts <;> exact List.cons_ne_nil _ _

theorem segments_ne_nil : segments delimiter state value ≠ [] := by
  cases value with
  | nil => exact List.cons_ne_nil _ _
  | cons ch rest =>
    rw [segments]
    split
    · exact List.cons_ne_nil _ _
    · exact prependFirst_ne_nil

/-! ### The search is the recursion -/

/-- The state as the search keeps it, between two of its steps. -/
def QuoteState.ofQuoted (quoted : Bool) : QuoteState := if quoted then .inside else .outside

theorem segments_prepend {stop : Nat} {rest : Bytes} (hstate : state ≠ .outside ∨ byte ≠ delimiter)
    (hparts : segments delimiter (state.step byte) rest =
      rest.take stop :: if stop = rest.length then [] else segments delimiter .outside (rest.drop (stop + 1))) :
    segments delimiter state (byte :: rest) = (byte :: rest).take (stop + 1) ::
      if stop + 1 = (byte :: rest).length then [] else
        segments delimiter .outside ((byte :: rest).drop (stop + 1 + 1)) := by
  rw [segments, if_neg (fun h => hstate.elim (absurd h.1) (absurd h.2)), hparts]
  simp [prependFirst]

/-- The first segment ends where the search stops, and the others are those of what is behind. -/
theorem segments_eq_scan (quoted : Bool) (hdelimiter : delimiter ≠ dquote) (offset : Nat) (value : Bytes) :
    ∃ stop, httpFindUnquotedDelimiterFrom 0 delimiter quoted offset value = offset + stop ∧ stop ≤ value.length ∧
      segments delimiter (.ofQuoted quoted) value = value.take stop ::
        if stop = value.length then [] else segments delimiter .outside (value.drop (stop + 1)) := by
  fun_induction httpFindUnquotedDelimiterFrom 0 delimiter quoted offset value with
  | case1 quoted offset => exact ⟨0, rfl, Nat.le_refl _, rfl⟩
  | case2 offset => exact ⟨1, rfl, Nat.le_refl _, rfl⟩
  | case3 offset escaped rest ih =>
    obtain ⟨stop, hscan, hle, hparts⟩ := ih
    refine ⟨stop + 2, by omega, by simpa using hle, ?_⟩
    refine segments_prepend (.inl (by decide)) ?_
    exact segments_prepend (.inl (by decide)) hparts
  | case4 offset ch rest hescape ih =>
    obtain ⟨stop, hscan, hle, hparts⟩ := ih
    refine ⟨stop + 1, by omega, by simpa using hle, segments_prepend (.inl (by decide)) ?_⟩
    have hstep : QuoteState.step (.ofQuoted true) ch = .ofQuoted (ch != dquote) := by
      by_cases hquote : ch = dquote
      · subst hquote
        rfl
      · simp [QuoteState.ofQuoted, QuoteState.step, hescape, hquote]
    rw [hstep]
    exact hparts
  | case5 offset rest ih =>
    obtain ⟨stop, hscan, hle, hparts⟩ := ih
    exact ⟨stop + 1, by omega, by simpa using hle, segments_prepend (.inr hdelimiter.symm) hparts⟩
  | case6 offset ch rest hquote hfound =>
    exact ⟨0, rfl, Nat.zero_le _, by simp [segments, QuoteState.ofQuoted, hfound.1]⟩
  | case7 offset ch rest hquote hother ih =>
    obtain ⟨stop, hscan, hle, hparts⟩ := ih
    have hch : ch ≠ delimiter := fun h => hother ⟨h, Nat.zero_le _⟩
    refine ⟨stop + 1, by omega, by simpa using hle, segments_prepend (.inr hch) ?_⟩
    have hstep : QuoteState.step (.ofQuoted false) ch = .ofQuoted false := by
      simp [QuoteState.ofQuoted, QuoteState.step, hquote]
    rw [hstep]
    exact hparts

theorem httpSplitUnquoted_eq {fuel : Nat} (hdelimiter : delimiter ≠ dquote) (h : value.length < fuel) :
    httpSplitUnquoted delimiter fuel value = segments delimiter .outside value := by
  induction fuel generalizing value with
  | zero => omega
  | succ fuel ih =>
    obtain ⟨stop, hscan, hle, hparts⟩ := segments_eq_scan false hdelimiter 0 value
    have hfind : httpFindUnquotedDelimiter value 0 delimiter = stop := by
      rw [httpFindUnquotedDelimiter]
      split
      · omega
      · rw [hscan, Nat.zero_add]
    rw [httpSplitUnquoted, hfind]
    refine Eq.trans ?_ hparts.symm
    congr 1
    split
    · rfl
    · exact ih (by rw [List.length_drop]; omega)

theorem httpCommaSeparatedQuotedFieldItems_eq (value : Bytes) :
    httpCommaSeparatedQuotedFieldItems value = (segments comma .outside value).map httpTrimOws := by
  rw [httpCommaSeparatedQuotedFieldItems, httpSplitUnquoted_eq (by decide) (Nat.lt_succ_self _)]

/-! ### Texts in front -/

theorem prependFirst_append (hparts : parts ≠ []) (others : List Bytes) :
    prependFirst byte (parts ++ others) = prependFirst byte parts ++ others := by
  cases parts with
  | nil => exact absurd rfl hparts
  | cons first rest => rfl

theorem step_delimiter (hdelimiter : delimiter ≠ dquote) : QuoteState.outside.step delimiter = .outside :=
  if_neg hdelimiter

/-- **A front that ends outside a quoted-string** is split apart from what is behind the delimiter. -/
theorem segments_append (hdelimiter : delimiter ≠ dquote) (h : state.behind value = .outside) :
    segments delimiter state (value ++ delimiter :: tail) =
      segments delimiter state value ++ segments delimiter .outside tail := by
  induction value generalizing state with
  | nil =>
    rw [List.nil_append, segments_cons, if_pos ⟨h, rfl⟩]
    rfl
  | cons ch rest ih =>
    rw [List.cons_append, segments_cons, segments_cons]
    split
    · rename_i hsplit
      obtain ⟨rfl, rfl⟩ := hsplit
      have hrest : QuoteState.outside.behind rest = .outside := by
        rw [QuoteState.behind, List.foldl_cons, step_delimiter hdelimiter] at h
        exact h
      rw [ih hrest]
      rfl
    · rw [ih h, prependFirst_append segments_ne_nil]

/-- `tail` put behind the last of the segments. -/
def appendLast (tail : Bytes) : List Bytes → List Bytes
  | [] => [tail]
  | [last] => [last ++ tail]
  | first :: second :: others => first :: appendLast tail (second :: others)

theorem appendLast_cons (hparts : parts ≠ []) (first : Bytes) :
    appendLast tail (first :: parts) = first :: appendLast tail parts := by
  cases parts with
  | nil => exact absurd rfl hparts
  | cons second others => rfl

theorem appendLast_append_singleton (parts : List Bytes) (last : Bytes) :
    appendLast tail (parts ++ [last]) = parts ++ [last ++ tail] := by
  induction parts with
  | nil => rfl
  | cons first rest ih =>
    rw [List.cons_append, appendLast_cons (by simp), ih]
    rfl

theorem prependFirst_appendLast (hparts : parts ≠ []) :
    prependFirst byte (appendLast tail parts) = appendLast tail (prependFirst byte parts) := by
  match parts, hparts with
  | [last], _ | first :: second :: others, _ => rfl

/-- A text without quotes and escapes does not end a quoted-string. -/
theorem segments_of_not_outside (htail : ∀ byte ∈ tail, byte ≠ dquote ∧ byte ≠ backslash) (h : state ≠ .outside) :
    segments delimiter state tail = [tail] := by
  induction tail generalizing state with
  | nil => rfl
  | cons byte tail ih =>
    obtain ⟨hquote, hescape⟩ := htail byte List.mem_cons_self
    have hstep : state.step byte ≠ .outside := by
      cases state with
      | outside => exact absurd rfl h
      | inside => simp [QuoteState.step, hquote, hescape]
      | escaped => simp [QuoteState.step]
    rw [segments_cons, if_neg (fun hsplit => h hsplit.1),
      ih (fun other hmem => htail other (List.mem_cons_of_mem _ hmem)) hstep]
    rfl

section

variable (hdelimiter : delimiter ≠ dquote)
include hdelimiter

/-- **A front that ends inside a quoted-string** takes what follows into its last segment. -/
theorem segments_append_quoted (h : state.behind value ≠ .outside)
    (htail : ∀ byte ∈ tail, byte ≠ dquote ∧ byte ≠ backslash) :
    segments delimiter state (value ++ tail) = appendLast tail (segments delimiter state value) := by
  induction value generalizing state with
  | nil =>
    exact segments_of_not_outside htail h
  | cons ch rest ih =>
    rw [List.cons_append, segments_cons, segments_cons]
    split
    · rename_i hsplit
      obtain ⟨rfl, rfl⟩ := hsplit
      have hrest : QuoteState.outside.behind rest ≠ .outside := by
        rw [QuoteState.behind, List.foldl_cons, step_delimiter hdelimiter] at h
        exact h
      rw [ih hrest, appendLast_cons segments_ne_nil]
    · rw [ih h, prependFirst_appendLast segments_ne_nil]

/-- The last segment ends the way the whole text does. -/
theorem segments_getLast (h : state.behind value ≠ .outside) :
    ∃ front last, segments delimiter state value = front ++ [last] ∧
      (front = [] ∧ last = value ∨ front ≠ [] ∧ QuoteState.outside.behind last ≠ .outside) := by
  induction value generalizing state with
  | nil => exact ⟨[], [], rfl, .inl ⟨rfl, rfl⟩⟩
  | cons ch rest ih =>
    rw [segments_cons]
    split
    · rename_i hsplit
      obtain ⟨rfl, rfl⟩ := hsplit
      have hrest : QuoteState.outside.behind rest ≠ .outside := by
        rw [QuoteState.behind, List.foldl_cons, step_delimiter hdelimiter] at h
        exact h
      obtain ⟨front, last, hparts, hlast⟩ := ih hrest
      refine ⟨[] :: front, last, by rw [hparts]; rfl, .inr ⟨List.cons_ne_nil _ _, ?_⟩⟩
      rcases hlast with ⟨-, rfl⟩ | hlast
      · exact hrest
      · exact hlast.2
    · obtain ⟨front, last, hparts, hlast⟩ := ih h
      rw [hparts]
      rcases hlast with ⟨rfl, rfl⟩ | ⟨hfront, hlast⟩
      · exact ⟨[], _, rfl, .inl ⟨rfl, rfl⟩⟩
      · obtain ⟨first, others, rfl⟩ := List.exists_cons_of_ne_nil hfront
        exact ⟨(ch :: first) :: others, last, rfl, .inr ⟨List.cons_ne_nil _ _, hlast⟩⟩

/-- The last segment of a text that ends inside a quoted-string ends inside one. -/
theorem segments_outside_getLast
    (h : QuoteState.outside.behind value ≠ .outside) :
    ∃ front last, segments delimiter .outside value = front ++ [last] ∧
      QuoteState.outside.behind last ≠ .outside := by
  obtain ⟨front, last, hparts, hlast⟩ := segments_getLast hdelimiter h
  refine ⟨front, last, hparts, ?_⟩
  rcases hlast with ⟨-, rfl⟩ | ⟨-, hlast⟩
  · exact h
  · exact hlast

end

end

end Ruvia.Http
