import Mathlib.Data.List.Basic

/-!
# `Library.TextSearch` — the first occurrence of one text in another

`findText` is the first place a nonempty text occurs at (`findText_eq_some_iff`). A text put behind another one may
occur before its place, when it begins with what it ends with: for a text whose only border is its first element
(`SingleBorder`), that is so exactly behind a text that ends with all of it but the last element
(`findText_append_self`).
-/

namespace Library

variable {α : Type*} [DecidableEq α]

/-- The first place of `needle` in a text. -/
def findText (needle : List α) : List α → Option Nat
  | [] => if needle = [] then some 0 else none
  | first :: rest => if needle.isPrefixOf (first :: rest) then some 0 else (findText needle rest).map (· + 1)

/-- `needle` stands at `position`. -/
def OccursAt (needle text : List α) (position : Nat) : Prop := needle <+: text.drop position

variable {needle text tail : List α} {position : Nat}

omit [DecidableEq α] in
theorem OccursAt.lt (hne : needle ≠ []) (h : OccursAt needle text position) : position < text.length := by
  by_contra hge
  rw [OccursAt, List.drop_of_length_le (by omega), List.prefix_nil] at h
  exact hne h

theorem findText_eq_none_iff (hne : needle ≠ []) : findText needle text = none ↔ ∀ j, ¬ OccursAt needle text j := by
  induction text with
  | nil =>
    rw [findText, if_neg hne]
    exact ⟨fun _ j h => absurd (h.lt hne) (Nat.not_lt_zero j), fun _ => rfl⟩
  | cons first rest ih =>
    rw [findText]
    by_cases hfront : needle.isPrefixOf (first :: rest) = true
    · rw [if_pos hfront]
      constructor
      · intro h
        cases h
      · intro h
        exact absurd (List.isPrefixOf_iff_prefix.mp hfront) (h 0)
    · rw [if_neg hfront, Option.map_eq_none_iff, ih]
      constructor
      · rintro h (_ | j) hj
        · exact hfront (List.isPrefixOf_iff_prefix.mpr hj)
        · exact h j hj
      · intro h j hj
        exact h (j + 1) hj

theorem findText_eq_some_iff (hne : needle ≠ []) :
    findText needle text = some position ↔
      OccursAt needle text position ∧ ∀ j < position, ¬ OccursAt needle text j := by
  induction text generalizing position with
  | nil =>
    rw [findText, if_neg hne]
    constructor
    · intro h
      cases h
    · rintro ⟨hoccurs, -⟩
      exact absurd (hoccurs.lt hne) (Nat.not_lt_zero _)
  | cons first rest ih =>
    rw [findText]
    by_cases hfront : needle.isPrefixOf (first :: rest) = true
    · have hzero : OccursAt needle (first :: rest) 0 := List.isPrefixOf_iff_prefix.mp hfront
      rw [if_pos hfront, Option.some.injEq]
      constructor
      · rintro rfl
        exact ⟨hzero, fun j hj => absurd hj (Nat.not_lt_zero j)⟩
      · rintro ⟨-, hfirst⟩
        by_contra hpos
        exact hfirst 0 (by omega) hzero
    · have hzero : ¬ OccursAt needle (first :: rest) 0 := fun h => hfront (List.isPrefixOf_iff_prefix.mpr h)
      rw [if_neg hfront, Option.map_eq_some_iff]
      constructor
      · rintro ⟨j, hj, rfl⟩
        obtain ⟨hoccurs, hfirst⟩ := ih.mp hj
        refine ⟨hoccurs, fun i hi => ?_⟩
        cases i with
        | zero => exact hzero
        | succ i => exact hfirst i (by omega)
      · rintro ⟨hoccurs, hfirst⟩
        cases position with
        | zero => exact absurd hoccurs hzero
        | succ j => exact ⟨j, ih.mpr ⟨hoccurs, fun i hi => hfirst (i + 1) (by omega)⟩, rfl⟩

/-- The first element is the only front of the text that is an end of it as well. -/
structure SingleBorder (needle : List α) : Prop where
  length : 2 ≤ needle.length
  border : needle.take 1 <:+ needle
  only : ∀ k, 0 < k → k < needle.length → needle.take k <:+ needle → k = 1

omit [DecidableEq α] in
theorem SingleBorder.ne_nil (h : SingleBorder needle) : needle ≠ [] := by
  rintro rfl
  exact Nat.not_succ_le_zero 1 h.length

omit [DecidableEq α] in
theorem occursAt_append_of_le (h : position ≤ text.length) :
    OccursAt needle (text ++ tail) position ↔ needle <+: text.drop position ++ tail := by
  rw [OccursAt, List.drop_append_of_le_length h]

omit [DecidableEq α] in
/-- The needle behind `text` occurs earlier only across the seam, by its border. -/
theorem SingleBorder.occursAt_seam (h : SingleBorder needle) (hout : ∀ j, ¬ OccursAt needle text j) :
    (∃ j < text.length, OccursAt needle (text ++ needle) j) ↔ needle.dropLast <:+ text := by
  have hlength := h.length
  constructor
  · rintro ⟨j, hj, hoccurs⟩
    rw [occursAt_append_of_le (Nat.le_of_lt hj)] at hoccurs
    rcases List.prefix_or_prefix_of_prefix hoccurs (List.prefix_append _ _) with hinside | ⟨front, hneedle⟩
    · exact absurd hinside (hout j)
    have hfront : front <+: needle := by
      rw [← hneedle] at hoccurs
      have hbehind := List.prefix_self_append_iff.mp hoccurs
      rwa [hneedle] at hbehind
    replace hneedle := hneedle.symm
    -- the part of the needle behind the seam is a border
    have hdrop : (text.drop j).length = text.length - j := List.length_drop
    have hsum := congrArg List.length hneedle
    rw [List.length_append] at hsum
    have htake : front = needle.take front.length := List.prefix_iff_eq_take.mp hfront
    by_cases hnil : front = []
    · rw [hnil, List.append_nil] at hneedle
      exact absurd (hneedle ▸ List.prefix_refl _) (hout j)
    · have hpos := List.length_pos_iff.mpr hnil
      have hsuffix : needle.take front.length <:+ needle := ⟨text.drop j, by rw [← htake]; exact hneedle.symm⟩
      have hone := h.only front.length hpos (by omega) hsuffix
      have hlast : needle.dropLast = text.drop j := by
        rw [List.dropLast_eq_take]
        conv_lhs => rw [hneedle]
        exact List.take_left' (by rw [List.length_append]; omega)
      rw [hlast]
      exact List.drop_suffix j text
  · intro hend
    have hle := hend.length_le
    rw [List.length_dropLast] at hle
    refine ⟨text.length - (needle.length - 1), by omega, ?_⟩
    rw [occursAt_append_of_le (Nat.sub_le _ _)]
    have hdrop : text.drop (text.length - (needle.length - 1)) = needle.dropLast := by
      have hsuffix := List.suffix_iff_eq_drop.mp hend
      rw [List.length_dropLast] at hsuffix
      exact hsuffix.symm
    obtain ⟨front, hfront⟩ := h.border
    have hone : (needle.take 1).length = 1 := by
      rw [List.length_take]
      omega
    have hsplit : needle = needle.dropLast ++ needle.take 1 := by
      have hcut : front = needle.dropLast := by
        have hsum := congrArg List.length hfront
        rw [List.length_append, hone] at hsum
        rw [List.dropLast_eq_take, ← hfront]
        exact (List.take_left' (by rw [List.length_append, hone]; rfl)).symm
      rw [← hcut]
      exact hfront.symm
    rw [hdrop]
    conv_lhs => rw [hsplit]
    exact (List.prefix_append_right_inj _).mpr (List.take_prefix 1 needle)

/-- **A text with a single border is found where it was put**, unless what is in front of it ends with all of it but
the last element. -/
theorem findText_append_self (h : SingleBorder needle) (hout : findText needle text = none) :
    findText needle (text ++ needle) = some text.length ↔ ¬ needle.dropLast <:+ text := by
  rw [findText_eq_some_iff h.ne_nil, ← h.occursAt_seam ((findText_eq_none_iff h.ne_nil).mp hout)]
  constructor
  · rintro ⟨-, hfirst⟩ ⟨j, hj, hoccurs⟩
    exact hfirst j hj hoccurs
  · intro hnone
    refine ⟨?_, fun j hj hoccurs => hnone ⟨j, hj, hoccurs⟩⟩
    have hdrop : (text ++ needle).drop text.length = needle := List.drop_left
    exact hdrop.symm.subst (motive := fun found => needle <+: found) (List.prefix_refl needle)

omit [DecidableEq α] in
/-- A text between two equal elements that it does not contain has a single border. -/
theorem singleBorder_of_enclosed {mark : α} {middle : List α} (h : mark ∉ middle) :
    SingleBorder (mark :: (middle ++ [mark])) := by
  have hlength : (mark :: (middle ++ [mark])).length = middle.length + 2 := by
    rw [List.length_cons, List.length_append, List.length_singleton]
  refine ⟨by omega, ⟨mark :: middle, rfl⟩, fun k hpos hlt hsuffix => ?_⟩
  obtain ⟨k, rfl⟩ : ∃ n, k = n + 1 := ⟨k - 1, by omega⟩
  have hdrop := List.suffix_iff_eq_drop.mp hsuffix
  have htake : (List.take (k + 1) (mark :: (middle ++ [mark]))).length = k + 1 := by
    rw [List.length_take]
    omega
  rw [htake] at hdrop
  -- the border begins with the mark, which stands in front and at the end only
  have hhead := congrArg List.head? hdrop
  rw [List.take_succ_cons, List.head?_cons, List.head?_drop] at hhead
  by_contra hk
  have hindex : (mark :: (middle ++ [mark])).length - (k + 1) = (middle.length - k) + 1 := by omega
  rw [hindex, List.getElem?_cons_succ, List.getElem?_append_left (by omega)] at hhead
  exact h (List.mem_of_getElem? hhead.symm)

/-! ## Texts with a mark in front -/

section

variable {mark : α} {label front front' back back' : List α}

omit [DecidableEq α]

/-- A text whose first element stands nowhere else in it does not reach into what has no such element. -/
theorem mark_infix_append_iff (hfront : mark ∉ front) : mark :: label <:+: front ++ back ↔ mark :: label <:+: back := by
  induction front with
  | nil => rfl
  | cons first front ih =>
    rw [List.mem_cons, not_or] at hfront
    rw [List.cons_append, List.infix_cons_iff, ih hfront.2, or_iff_right]
    intro h
    exact hfront.1 (List.cons_prefix_cons.mp h).1

/-- What stands in front of the **first occurrence** of a marked text, and what behind it, are determined. -/
theorem append_mark_inj (hmark : mark ∉ label) (hfront : ¬mark :: label <:+: front)
    (hfront' : ¬mark :: label <:+: front')
    (h : front ++ mark :: (label ++ back) = front' ++ mark :: (label ++ back')) : front = front' ∧ back = back' := by
  -- a front that were longer would hold the whole of the other occurrence
  have hnot : ∀ {a b b' middle : List α}, ¬mark :: label <:+: a ++ middle →
      mark :: (label ++ b) = middle ++ mark :: (label ++ b') → middle = [] := by
    intro a b b' middle hinside hcut
    cases middle with
    | nil => rfl
    | cons first middle =>
      obtain ⟨rfl, htail⟩ := List.cons_eq_cons.mp hcut
      rcases List.append_eq_append_iff.mp htail with ⟨rest, rfl, -⟩ | ⟨rest, hlabel, hrest⟩
      · exact absurd ⟨a, rest, by simp⟩ hinside
      · cases rest with
        | nil => exact absurd ⟨a, [], by simp [hlabel]⟩ hinside
        | cons first rest =>
          obtain ⟨rfl, -⟩ := List.cons_eq_cons.mp hrest
          exact absurd (hlabel ▸ List.mem_append_right _ List.mem_cons_self) hmark
  rcases List.append_eq_append_iff.mp h with ⟨middle, rfl, hcut⟩ | ⟨middle, rfl, hcut⟩
  · obtain rfl := hnot hfront' hcut
    exact ⟨(List.append_nil _).symm, List.append_cancel_left (List.cons_eq_cons.mp hcut).2⟩
  · obtain rfl := hnot hfront hcut
    exact ⟨List.append_nil _, (List.append_cancel_left (List.cons_eq_cons.mp hcut).2).symm⟩

/-- The first occurrence of an element cuts a text in one way. -/
theorem append_cons_inj_of_first (hfront : mark ∉ front) (hfront' : mark ∉ front')
    (h : front ++ mark :: back = front' ++ mark :: back') : front = front' ∧ back = back' := by
  have hinside : ∀ {text : List α}, mark ∉ text → ¬[mark] <:+: text := fun hnot hinside =>
    hnot (hinside.subset List.mem_cons_self)
  exact append_mark_inj List.not_mem_nil (hinside hfront) (hinside hfront') h

end

end Library
