import Ruvia.Http.FieldValues
import Ruvia.Library.TextSearch

/-!
# `Http.MultipartGrammar` — the multipart body

The grammar of a multipart body as a relation between the text and its parts: a preamble, the parts between
delimiters, each with its header fields, and a closing delimiter. A delimiter is a line break, two hyphens and the
boundary, and a part holds none. With a boundary that holds no carriage return a text has at most one reading
(`Body.unique`).
-/

namespace Ruvia.Http.Multipart

open Library

abbrev dash : UInt8 := 0x2d

def dashBoundary (boundary : Bytes) : Bytes := dash :: dash :: boundary

def delimiter (boundary : Bytes) : Bytes := cr :: lf :: dashBoundary boundary

/-- The header fields, each a name and a value, and the content. -/
structure BodyPart where
  fields : List (Bytes × Bytes)
  content : Bytes
  deriving DecidableEq, Repr

/-- Field lines, an empty line and the content. -/
inductive BodyPart.Spelled : BodyPart → Bytes → Prop
  | content (content : Bytes) : Spelled ⟨[], content⟩ (cr :: lf :: content)
  | field {name value content text : Bytes} {fields : List (Bytes × Bytes)} :
      isValidHttpHeaderName name = true → (∀ byte ∈ value, isHttpFieldValueChar byte = true) →
      Spelled ⟨fields, content⟩ text →
      Spelled ⟨(name, httpTrimOws value) :: fields, content⟩ (name ++ colon :: (value ++ cr :: lf :: text))

/-- Whitespace behind a delimiter, on its line. -/
def IsPadding (text : Bytes) : Prop := ∀ byte ∈ text, isHttpOwsChar byte = true

/-- The parts in a text behind a delimiter. -/
inductive Encapsulated (boundary : Bytes) : List BodyPart → Bytes → Prop
  | close {padding epilogue : Bytes} : IsPadding padding →
      Encapsulated boundary [] (dash :: dash :: (padding ++ epilogue))
  | part {padding text rest : Bytes} {part : BodyPart} {parts : List BodyPart} : IsPadding padding →
      part.Spelled text → ¬delimiter boundary <:+: cr :: lf :: text → Encapsulated boundary parts rest →
      Encapsulated boundary (part :: parts) (padding ++ cr :: lf :: (text ++ (delimiter boundary ++ rest)))

/-- The text is a multipart body of these parts. The first delimiter may stand at the front of the text, where it has
no line break of its own. -/
def Body (boundary : Bytes) (parts : List BodyPart) (text : Bytes) : Prop :=
  ∃ preamble rest, cr :: lf :: text = preamble ++ (delimiter boundary ++ rest) ∧
    ¬delimiter boundary <:+: preamble ∧ Encapsulated boundary parts rest

section

variable {boundary text padding value name : Bytes} {part part' : BodyPart} {parts parts' : List BodyPart}

theorem cr_not_mem_value (h : ∀ byte ∈ value, isHttpFieldValueChar byte = true) : cr ∉ value := fun hmem =>
  absurd (h cr hmem) (by decide)

theorem cr_not_mem_padding (h : IsPadding padding) : cr ∉ padding := fun hmem =>
  absurd (h cr hmem) (by decide)

section

variable (h : isValidHttpHeaderName name = true)
include h

theorem colon_not_mem_name : colon ∉ name := fun hmem =>
  absurd ((isValidHttpHeaderName_iff.mp h).2 colon hmem) (by decide)

theorem name_head? : name.head? ≠ some cr := fun hhead =>
  absurd ((isValidHttpHeaderName_iff.mp h).2 cr (List.mem_of_head? hhead)) (by decide)

theorem name_ne_nil : name ≠ [] := (isValidHttpHeaderName_iff.mp h).1

/-- A field line does not begin like an empty one. -/
theorem name_append_ne (text rest : Bytes) : name ++ text ≠ cr :: rest := by
  intro heq
  have hhead := congrArg List.head? heq
  rw [List.head?_append_of_ne_nil _ (name_ne_nil h)] at hhead
  exact name_head? h hhead

end

theorem BodyPart.Spelled.unique (h : part.Spelled text) (h' : part'.Spelled text) : part = part' := by
  induction h generalizing part' with
  | content content =>
    generalize hwhole : cr :: lf :: content = whole at h'
    cases h' with
    | content => rw [(List.cons.inj (List.cons.inj hwhole).2).2]
    | field hname => exact absurd hwhole.symm (name_append_ne hname _ _)
  | @field name value content text fields hname hvalue htext ih =>
    generalize hwhole : name ++ colon :: (value ++ cr :: lf :: text) = whole at h'
    cases h' with
    | content => exact absurd hwhole (name_append_ne hname _ _)
    | @field name' value' content' text' fields' hname' hvalue' htext' =>
      obtain ⟨rfl, hline⟩ :=
        append_cons_inj_of_first (colon_not_mem_name hname) (colon_not_mem_name hname') hwhole
      obtain ⟨rfl, hrest⟩ := append_cons_inj_of_first (cr_not_mem_value hvalue) (cr_not_mem_value hvalue') hline
      obtain rfl := (List.cons.inj hrest).2
      obtain heq := ih htext'
      rw [BodyPart.mk.injEq] at heq
      rw [heq.1, heq.2]

theorem cr_not_mem_label (h : cr ∉ boundary) : cr ∉ lf :: dashBoundary boundary := by
  simp only [dashBoundary, List.mem_cons, not_or]
  exact ⟨by decide, by decide, by decide, h⟩

/-- What is in front of the first delimiter and what is behind it are determined. -/
theorem append_delimiter_inj {front front' back back' : Bytes} (hboundary : cr ∉ boundary)
    (hfront : ¬delimiter boundary <:+: front) (hfront' : ¬delimiter boundary <:+: front')
    (h : front ++ (delimiter boundary ++ back) = front' ++ (delimiter boundary ++ back')) :
    front = front' ∧ back = back' :=
  append_mark_inj (cr_not_mem_label hboundary) hfront hfront' h

/-- Behind a delimiter two hyphens close the body, and nothing else does. -/
theorem padding_append_ne (h : IsPadding padding) (text rest : Bytes) : padding ++ cr :: text ≠ dash :: rest := by
  intro heq
  cases padding with
  | nil => exact absurd (List.cons.inj heq).1 (by decide)
  | cons byte padding =>
    have hbyte := h byte List.mem_cons_self
    rw [(List.cons.inj heq).1] at hbyte
    exact absurd hbyte (by decide)

theorem Encapsulated.unique (hboundary : cr ∉ boundary) (h : Encapsulated boundary parts text)
    (h' : Encapsulated boundary parts' text) : parts = parts' := by
  induction h generalizing parts' with
  | @close padding epilogue hpadding =>
    generalize hwhole : dash :: dash :: (padding ++ epilogue) = whole at h'
    cases h' with
    | close => rfl
    | part hpadding' => exact absurd hwhole.symm (padding_append_ne hpadding' _ _)
  | @part padding text rest part parts hpadding hpart hfree hrest ih =>
    generalize hwhole : padding ++ cr :: lf :: (text ++ (delimiter boundary ++ rest)) = whole at h'
    cases h' with
    | close => exact absurd hwhole (padding_append_ne hpadding _ _)
    | @part padding' text' rest' part' parts' hpadding' hpart' hfree' hrest' =>
      obtain ⟨rfl, htext⟩ :=
        append_cons_inj_of_first (cr_not_mem_padding hpadding) (cr_not_mem_padding hpadding') hwhole
      have htext : cr :: lf :: text ++ (delimiter boundary ++ rest) =
          cr :: lf :: text' ++ (delimiter boundary ++ rest') := congrArg (cr :: ·) htext
      obtain ⟨hsame, rfl⟩ := append_delimiter_inj hboundary hfree hfree' htext
      obtain rfl := (List.cons.inj (List.cons.inj hsame).2).2
      rw [hpart.unique hpart', ih hrest']

/-- **A text has at most one reading** as a multipart body. -/
theorem Body.unique (hboundary : cr ∉ boundary) (h : Body boundary parts text) (h' : Body boundary parts' text) :
    parts = parts' := by
  obtain ⟨preamble, rest, htext, hfree, hparts⟩ := h
  obtain ⟨preamble', rest', htext', hfree', hparts'⟩ := h'
  obtain ⟨-, rfl⟩ := append_delimiter_inj hboundary hfree hfree' (htext.symm.trans htext')
  exact hparts.unique hboundary hparts'

end

end Ruvia.Http.Multipart
