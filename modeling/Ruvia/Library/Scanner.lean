import Mathlib.Data.List.Basic

/-!
# `Library.Scanner` — texts cut into tokens by a lookahead scanner

A `Scanner` says how many elements the first token of a text takes. It never looks back, so the cut of a text
(`tokens`) is a recursion on what is left of it, and a token stays one when the text behind it changes, as long as
the scanner still gives it the same length (`tokens_append`).
-/

namespace Library

/-- The length of the first token of a text that is not empty. -/
structure Scanner (α : Type) where
  skip : List α → Nat
  pos : ∀ rest, rest ≠ [] → 0 < skip rest
  le : ∀ rest, skip rest ≤ rest.length

namespace Scanner

variable {α : Type} (scanner : Scanner α) {rest token behind : List α}

theorem length_drop_lt (h : rest ≠ []) : (rest.drop (scanner.skip rest)).length < rest.length := by
  have hpos := scanner.pos rest h
  have hle := scanner.le rest
  rw [List.length_drop]
  omega

/-- The cut of a text into tokens. -/
def tokens (rest : List α) : List (List α) :=
  if _ : rest = [] then [] else rest.take (scanner.skip rest) :: tokens (rest.drop (scanner.skip rest))
termination_by rest.length
decreasing_by exact scanner.length_drop_lt ‹_›

@[simp] theorem tokens_nil : scanner.tokens [] = [] := by
  rw [tokens, dif_pos rfl]

theorem tokens_of_ne_nil (h : rest ≠ []) :
    scanner.tokens rest = rest.take (scanner.skip rest) :: scanner.tokens (rest.drop (scanner.skip rest)) := by
  rw [tokens, dif_neg h]

/-- **A token in front** of a text is cut off whole. -/
theorem tokens_append (hskip : scanner.skip (token ++ behind) = token.length) (htoken : token ≠ []) :
    scanner.tokens (token ++ behind) = token :: scanner.tokens behind := by
  rw [tokens_of_ne_nil _ (List.append_ne_nil_of_left_ne_nil htoken _), hskip, List.take_left, List.drop_left]

/-- The first token of a text, when the cut is known. -/
theorem tokens_eq_cons {others : List (List α)} (h : scanner.tokens (token ++ behind) = token :: others) :
    token ≠ [] ∧ scanner.skip (token ++ behind) = token.length ∧ scanner.tokens behind = others := by
  have hne : token ++ behind ≠ [] := by
    intro hnil
    rw [hnil, tokens_nil] at h
    cases h
  have hle := scanner.le (token ++ behind)
  have hpos := scanner.pos (token ++ behind) hne
  rw [tokens_of_ne_nil _ hne, List.cons.injEq] at h
  have hlength := congrArg List.length h.1
  rw [List.length_take_of_le hle] at hlength
  refine ⟨?_, hlength, ?_⟩
  · rintro rfl
    rw [List.length_nil] at hlength
    omega
  · rw [← h.2, hlength, List.drop_left]

/-- Induction on the tokens of a text. -/
theorem induct {motive : List α → Prop} (nil : motive [])
    (cons : ∀ token behind, token ≠ [] → scanner.skip (token ++ behind) = token.length → motive behind →
      motive (token ++ behind)) (rest : List α) : motive rest := by
  by_cases h : rest = []
  · rw [h]
    exact nil
  · have hlt := scanner.length_drop_lt h
    have hbehind := induct nil cons (rest.drop (scanner.skip rest))
    have hlength : (rest.take (scanner.skip rest)).length = scanner.skip rest :=
      List.length_take_of_le (scanner.le rest)
    have hsplit := cons (rest.take (scanner.skip rest)) _ ?_ ?_ hbehind
    · rwa [List.take_append_drop] at hsplit
    · intro hnil
      have hpos := scanner.pos rest h
      rw [hnil, List.length_nil] at hlength
      omega
    · rw [List.take_append_drop, hlength]
termination_by rest.length
decreasing_by exact hlt

/-- The tokens of a text are the text. -/
@[simp] theorem flatten_tokens (rest : List α) : (scanner.tokens rest).flatten = rest := by
  induction rest using scanner.induct with
  | nil => simp
  | cons token behind htoken hskip ih => rw [scanner.tokens_append hskip htoken, List.flatten_cons, ih]

end Scanner

end Library
