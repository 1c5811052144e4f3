import Ruvia.Http.StructuredItems

/-!
# `Http.StructuredMembers` — parameters, inner lists and member values

`parameters` and `member` of `http_structured_parser`, and the grammar that they read. What stands behind parameters
must not be a `;` (`BehindParameters`), or the loop would go on.
-/

namespace Ruvia.Http

open Library

namespace HttpStructuredParser

open StructuredInput (empty peek data advance text)

/-! ## The grammar -/

def IsSpaces (text : Bytes) : Prop := ∀ byte ∈ text, byte = sp

inductive IsKey : Bytes → Prop where
  | mk {first : UInt8} {rest : Bytes} (hfirst : isKeyStart first = true)
      (hrest : ∀ byte ∈ rest, isKeyByte byte = true) : IsKey (first :: rest)

inductive IsParameterValue : Bytes → Prop where
  | absent : IsParameterValue []
  | present {item : Bytes} {bare : BareItem} (hitem : IsBareItem item bare) : IsParameterValue (equalsSign :: item)

inductive IsParameters : Bytes → Prop where
  | nil : IsParameters []
  | cons {spaces key value rest : Bytes} (hspaces : IsSpaces spaces) (hkey : IsKey key)
      (hvalue : IsParameterValue value) (hrest : IsParameters rest) :
      IsParameters (semicolon :: (spaces ++ (key ++ (value ++ rest))))

/-- The items of an inner list, with a space between two of them. -/
inductive IsInnerItems : Bytes → Prop where
  | nil : IsInnerItems []
  | cons {item parameters spaces rest : Bytes} {bare : BareItem} (hitem : IsBareItem item bare)
      (hparameters : IsParameters parameters) (hspaces : IsSpaces spaces) (hbetween : rest ≠ [] → spaces ≠ [])
      (hrest : IsInnerItems rest) : IsInnerItems (item ++ (parameters ++ (spaces ++ rest)))

/-- The value of a member: parameters, and the items of an inner list, do not matter to who reads it. -/
inductive MemberValue where
  | item (bare : BareItem)
  | innerList
  deriving DecidableEq, Repr

def MemberValue.structured : MemberValue → HttpStructuredItem
  | .item bare => bare.structured
  | .innerList => {}

inductive IsMemberValue : Bytes → MemberValue → Prop where
  | item {item parameters : Bytes} {bare : BareItem} (hitem : IsBareItem item bare)
      (hparameters : IsParameters parameters) : IsMemberValue (item ++ parameters) (.item bare)
  | innerList {spaces items parameters : Bytes} (hspaces : IsSpaces spaces) (hitems : IsInnerItems items)
      (hparameters : IsParameters parameters) :
      IsMemberValue (openParenthesis :: (spaces ++ (items ++ closeParenthesis :: parameters))) .innerList

/-! ## Parameters -/

section

variable {ι : Type} [StructuredInput ι] {input next : ι} {rest blanks name value params : Bytes}

/-- One pass of the loop of `parameters`, behind the `;`. -/
def parameter (input : ι) : Option ι :=
  let (name, behind) := key (spaces input)
  if name = [] then none
  else
    match take equalsSign behind with
    | some value => (item value).map (·.2)
    | none => some behind

theorem text_spaces (input : ι) : ∃ blanks, text input = blanks ++ text (spaces input) ∧ IsSpaces blanks := by
  refine ⟨(text input).takeWhile (· == sp), ?_, fun byte hbyte => ?_⟩
  · rw [spaces, text_skipWhile, List.takeWhile_append_dropWhile]
  · have hblank := List.mem_takeWhile_imp hbyte
    exact beq_iff_eq.mp hblank

theorem isKey_of_keyOf {text : Bytes} (h : keyOf text ≠ []) : IsKey (keyOf text) := by
  cases text with
  | nil => exact absurd rfl h
  | cons first rest =>
    rw [keyOf] at h ⊢
    by_cases hstart : isKeyStart first = true
    · rw [if_pos hstart]
      exact .mk hstart fun byte hbyte => List.mem_takeWhile_imp hbyte
    · rw [if_neg hstart] at h
      exact absurd rfl h

theorem parameter_sound (h : parameter input = some next) :
    ∃ blanks name value, text input = blanks ++ (name ++ (value ++ text next)) ∧ IsSpaces blanks ∧ IsKey name ∧
      IsParameterValue value := by
  obtain ⟨blanks, hspaces, hblank⟩ := text_spaces input
  obtain ⟨hname, hkey⟩ := key_spec (spaces input)
  unfold parameter at h
  dsimp only at h
  by_cases hempty : (key (spaces input)).1 = []
  · rw [if_pos hempty] at h
    cases h
  rw [if_neg hempty] at h
  have hvalid : IsKey (key (spaces input)).1 := by
    rw [hname] at hempty ⊢
    exact isKey_of_keyOf hempty
  rcases take_cases equalsSign (key (spaces input)).2 with
    ⟨behind, htake, hbehind⟩ | ⟨htake, -⟩
  · rw [htake] at h
    obtain ⟨⟨read, behind'⟩, hread, rfl⟩ := Option.map_eq_some_iff.mp h
    obtain ⟨item, bare, hitem, hbare, -⟩ := item_sound hread
    refine ⟨blanks, _, equalsSign :: item, ?_, hblank, hvalid, .present hbare⟩
    rw [hspaces, hkey, hbehind, hitem]
    simp
  · rw [htake] at h
    obtain rfl := Option.some.inj h
    refine ⟨blanks, _, [], ?_, hblank, hvalid, .absent⟩
    rw [hspaces, hkey]
    simp

theorem parameter_length (htake : take semicolon input = some next) {behind : ι} (h : parameter next = some behind) :
    (text behind).length < (text input).length := by
  obtain ⟨blanks, name, value, htext, -⟩ := parameter_sound h
  rw [text_of_take htake, htext]
  simp only [List.length_cons, List.length_append]
  omega

def parameters (input : ι) : Option ι :=
  match _h : take semicolon input with
  | none => some input
  | some next =>
    match _h' : parameter next with
    | none => none
    | some behind => parameters behind
termination_by (text input).length
decreasing_by exact parameter_length _h _h'

theorem parameters_of_none (h : take semicolon input = none) : parameters input = some input := by
  rw [parameters]
  split
  · rfl
  · rename_i next htake
    cases h.symm.trans htake

theorem parameters_of_some (h : take semicolon input = some next) :
    parameters input = (parameter next).bind parameters := by
  rw [parameters]
  split
  · rename_i htake
    cases h.symm.trans htake
  · rename_i next' htake
    obtain rfl := Option.some.inj (h.symm.trans htake)
    split
    · rename_i hnone
      rw [hnone]
      rfl
    · rename_i behind hbehind
      rw [hbehind]
      rfl

/-- **What is read are parameters.** -/
theorem parameters_sound (h : parameters input = some next) :
    ∃ params, text input = params ++ text next ∧ IsParameters params := by
  induction hlength : (text input).length using Nat.strong_induction_on generalizing input with
  | _ n ih =>
    subst hlength
    rcases take_cases semicolon input with ⟨behind, htake, hbehind⟩ | ⟨htake, -⟩
    · rw [parameters_of_some htake] at h
      obtain ⟨behind', hparameter, hrest⟩ := Option.bind_eq_some_iff.mp h
      obtain ⟨blanks, name, value, htext, hspaces, hkey, hvalue⟩ := parameter_sound hparameter
      obtain ⟨rest, hread, hparameters⟩ := ih _ (parameter_length htake hparameter) hrest rfl
      refine ⟨semicolon :: (blanks ++ (name ++ (value ++ rest))), ?_, .cons hspaces hkey hvalue hparameters⟩
      rw [hbehind, htext, hread]
      simp
    · rw [parameters_of_none htake] at h
      obtain rfl := Option.some.inj h
      exact ⟨[], rfl, .nil⟩

/-- What may stand behind parameters. -/
structure BehindParameters (rest : Bytes) : Prop where
  behindItem : BehindItem rest
  noParameter : rest.head? ≠ some semicolon

theorem IsParameters.behindItem (h : IsParameters params) (hrest : BehindItem rest) :
    BehindItem (params ++ rest) := by
  cases h with
  | nil => exact hrest
  | cons hspaces hkey hvalue hparameters =>
    intro byte hbyte
    rw [← Option.some.inj hbyte]
    rfl

theorem spaces_of_text (hspaces : IsSpaces blanks) (htext : text input = blanks ++ rest)
    (hrest : rest.head? ≠ some sp) : text (spaces input) = rest := by
  rw [spaces, text_skipWhile, htext]
  apply Library.dropWhile_append_stop
  · exact fun byte hbyte => beq_iff_eq.mpr (hspaces byte hbyte)
  · intro byte hbyte
    rw [beq_eq_false_iff_ne]
    rintro rfl
    exact hrest hbyte

/-- A key is read, in front of a byte that cannot go on with it. -/
theorem key_of_text (hkey : IsKey name) (htext : text input = name ++ rest)
    (hrest : ∀ byte, rest.head? = some byte → isKeyByte byte = false) :
    (key input).1 = name ∧ text (key input).2 = rest := by
  obtain ⟨hname, hread⟩ := key_spec input
  obtain @⟨first, tail, hfirst, htail⟩ := hkey
  have hkey : keyOf (text input) = first :: tail := by
    rw [htext, List.cons_append, keyOf, if_pos hfirst, takeWhile_run_stop htail hrest]
  rw [hname, hkey] at hread
  rw [htext] at hread
  exact ⟨hname.trans hkey, (List.append_cancel_left hread).symm⟩

theorem IsKey.head (h : IsKey name) (rest : Bytes) {byte : UInt8} (hbyte : isKeyStart byte = false) :
    (name ++ rest).head? ≠ some byte := by
  cases h with
  | mk hfirst hrest =>
    intro heq
    rw [← Option.some.inj heq, hfirst] at hbyte
    cases hbyte

theorem parameter_complete (hspaces : IsSpaces blanks) (hkey : IsKey name) (hvalue : IsParameterValue value)
    (htext : text input = blanks ++ (name ++ (value ++ rest))) (hrest : BehindItem rest) :
    ∃ next, parameter input = some next ∧ text next = rest := by
  have hstart := spaces_of_text hspaces htext (hkey.head _ (by decide))
  have hstop : ∀ byte, (value ++ rest).head? = some byte → isKeyByte byte = false := by
    cases hvalue with
    | absent => exact hrest.stop (by decide)
    | present hitem =>
      intro byte hbyte
      rw [← Option.some.inj hbyte]
      rfl
  have hne : name ≠ [] := by
    rintro rfl
    cases hkey
  obtain ⟨hname, hbehind⟩ := key_of_text hkey hstart hstop
  unfold parameter
  dsimp only
  rw [hname, if_neg hne]
  cases hvalue with
  | absent =>
    have htake : take equalsSign (key (spaces input)).2 = none := by
      rw [take_eq_none_iff, hbehind]
      intro hhead
      exact absurd (hrest equalsSign hhead) (by decide)
    rw [htake]
    exact ⟨_, rfl, hbehind⟩
  | present hitem =>
    obtain ⟨behind, htake, hitemText⟩ := take_of_text hbehind
    obtain ⟨next, hread, hnext⟩ := item_complete hitem hitemText hrest
    rw [htake]
    dsimp only
    rw [hread]
    exact ⟨next, rfl, hnext⟩

/-- **Parameters are read**, in front of what may follow them. -/
theorem parameters_complete (h : IsParameters params) (htext : text input = params ++ rest)
    (hrest : BehindParameters rest) : ∃ next, parameters input = some next ∧ text next = rest := by
  induction h generalizing input with
  | nil =>
    have htake : take semicolon input = none := by
      rw [take_eq_none_iff, htext]
      exact hrest.noParameter
    exact ⟨input, parameters_of_none htake, htext⟩
  | cons hspaces hkey hvalue hparameters ih =>
    rw [List.cons_append, List.append_assoc, List.append_assoc, List.append_assoc] at htext
    obtain ⟨behind, htake, hbehind⟩ := take_of_text htext
    obtain ⟨behind', hparameter, hbehind'⟩ :=
      parameter_complete hspaces hkey hvalue hbehind (hparameters.behindItem hrest.behindItem)
    obtain ⟨next, hread, hnext⟩ := ih hbehind'
    rw [parameters_of_some htake, hparameter]
    exact ⟨next, hread, hnext⟩

end

/-! ## Inner lists and members -/

section

variable {ι : Type} [StructuredInput ι] {input next : ι} {rest blanks bareText params items text' : Bytes}
  {bare : BareItem} {member' : MemberValue} {value : HttpStructuredItem}

/-- An item with its parameters in an inner list. -/
def innerItem (input : ι) : Option ι := (item input).bind fun read => parameters read.2

theorem innerItem_sound (h : innerItem input = some next) :
    ∃ bareText bare params, text input = bareText ++ (params ++ text next) ∧ IsBareItem bareText bare ∧
      IsParameters params := by
  obtain ⟨⟨value, behind⟩, hitem, hparams⟩ := Option.bind_eq_some_iff.mp h
  obtain ⟨bareText, bare, htext, hbare, -⟩ := item_sound hitem
  obtain ⟨params, hbehind, hvalid⟩ := parameters_sound hparams
  exact ⟨bareText, bare, params, by rw [htext, hbehind], hbare, hvalid⟩

/-- A byte that a bare item begins with. -/
def isItemStart (byte : UInt8) : Bool :=
  isDigit byte || byte == hyphen || byte == dquote || byte == colon || byte == questionMark || isTokenStart byte

theorem IsBareItem.start (h : IsBareItem bareText bare) :
    ∃ first tail, bareText = first :: tail ∧ isItemStart first = true := by
  have hrun : ∀ {digits : Bytes} {most : Nat} (behind : Bytes), DigitRun 1 most digits →
      ∃ first tail, digits ++ behind = first :: tail ∧ isItemStart first = true := by
    intro digits most behind hdigits
    rcases digits with _ | ⟨first, digits⟩
    · exact absurd hdigits.least (by decide)
    · exact ⟨first, digits ++ behind, rfl, by simp [isItemStart, hdigits.digit first (List.mem_cons_self ..)]⟩
  cases h with
  | integer hdigits =>
    have hstart := hrun [] hdigits
    rwa [List.append_nil] at hstart
  | negative hdigits | string hbody | byteSequence hdigits hquartets hpadding | boolean flag => exact ⟨_, _, rfl, rfl⟩
  | decimal hsign hdigits hfraction =>
    rcases hsign with rfl | rfl
    · rw [List.nil_append]
      exact hrun _ hdigits
    · exact ⟨_, _, rfl, rfl⟩
  | token hfirst hrest => exact ⟨_, _, rfl, by simp [isItemStart, hfirst]⟩

theorem IsBareItem.head (h : IsBareItem bareText bare) (rest : Bytes) {byte : UInt8}
    (hbyte : isItemStart byte = false) : (bareText ++ rest).head? ≠ some byte := by
  obtain ⟨first, tail, rfl, hfirst⟩ := h.start
  intro heq
  rw [← Option.some.inj heq, hfirst] at hbyte
  cases hbyte

theorem innerItem_length (h : innerItem input = some next) : (text (spaces next)).length < (text input).length := by
  obtain ⟨bareText, bare, params, htext, hbare, -⟩ := innerItem_sound h
  obtain ⟨first, tail, rfl, -⟩ := hbare.start
  obtain ⟨blanks, hblanks, -⟩ := text_spaces next
  rw [htext, hblanks]
  simp only [List.length_cons, List.length_append]
  omega

/-- The loop of `member` over the items of an inner list. -/
def innerList (input : ι) : Option ι :=
  match take closeParenthesis input with
  | some next => some next
  | none =>
    match _h : innerItem input with
    | none => none
    | some next =>
      if empty next = true ∨ (peek next ≠ sp ∧ peek next ≠ closeParenthesis) then none
      else innerList (spaces next)
termination_by (text input).length
decreasing_by exact innerItem_length _h

theorem innerList_of_close (h : take closeParenthesis input = some next) : innerList input = some next := by
  rw [innerList, h]

theorem innerList_of_item (hclose : take closeParenthesis input = none) (h : innerItem input = some next) :
    innerList input =
      if empty next = true ∨ (peek next ≠ sp ∧ peek next ≠ closeParenthesis) then none
      else innerList (spaces next) := by
  rw [innerList, hclose]
  dsimp only
  split
  · rename_i hnone
    cases h.symm.trans hnone
  · rename_i next' hsome
    obtain rfl := Option.some.inj (h.symm.trans hsome)
    rfl

theorem innerList_of_none (hclose : take closeParenthesis input = none) (h : innerItem input = none) :
    innerList input = none := by
  rw [innerList, hclose]
  dsimp only
  split
  · rfl
  · rename_i next' hsome
    cases h.symm.trans hsome

def member (input : ι) : Option (HttpStructuredItem × ι) :=
  match take openParenthesis input with
  | none => (item input).bind fun (value, next) => (parameters next).map (value, ·)
  | some next => ((innerList (spaces next)).bind parameters).map ({}, ·)

theorem innerList_sound (h : innerList input = some next) :
    ∃ items, text input = items ++ closeParenthesis :: text next ∧ IsInnerItems items := by
  induction hlength : (text input).length using Nat.strong_induction_on generalizing input with
  | _ n ih =>
    subst hlength
    rcases take_cases closeParenthesis input with ⟨behind, hclose, htext⟩ | ⟨hclose, -⟩
    · rw [innerList_of_close hclose] at h
      obtain rfl := Option.some.inj h
      exact ⟨[], htext, .nil⟩
    · cases hitem : innerItem input with
      | none =>
        rw [innerList_of_none hclose hitem] at h
        cases h
      | some behind =>
        rw [innerList_of_item hclose hitem] at h
        split_ifs at h with hbehind
        obtain ⟨items, hitems, hvalid⟩ := ih _ (innerItem_length hitem) h rfl
        obtain ⟨bareText, bare, params, htext, hbare, hparams⟩ := innerItem_sound hitem
        obtain ⟨blanks, hblanks, hspaces⟩ := text_spaces behind
        refine ⟨bareText ++ (params ++ (blanks ++ items)), ?_, .cons hbare hparams hspaces ?_ hvalid⟩
        · rw [htext, hblanks, hitems]
          simp
        · -- Without a space the list is at its end, which is no item.
          rintro hne rfl
          rw [not_or, not_and_or, not_not, not_not] at hbehind
          obtain ⟨hempty, hpeek⟩ := hbehind
          cases hvalid with
          | nil => exact hne rfl
          | cons hbare' =>
            rw [List.nil_append, hitems, List.append_assoc] at hblanks
            rw [StructuredInput.text_of_not_empty behind (by simpa using hempty)] at hblanks
            rcases hpeek with hpeek | hpeek
            · exact hbare'.head _ (show isItemStart sp = false by decide)
                ((congrArg List.head? hblanks).symm.trans (congrArg some hpeek))
            · exact hbare'.head _ (show isItemStart closeParenthesis = false by decide)
                ((congrArg List.head? hblanks).symm.trans (congrArg some hpeek))

theorem IsInnerItems.head (h : IsInnerItems items) (rest : Bytes) :
    (items ++ closeParenthesis :: rest).head? ≠ some sp := by
  cases h with
  | nil => exact fun heq => absurd (Option.some.inj heq) (by decide)
  | cons hitem =>
    rw [List.append_assoc]
    exact hitem.head _ (by decide)

theorem innerList_complete (h : IsInnerItems items) (htext : text input = items ++ closeParenthesis :: rest) :
    ∃ next, innerList input = some next ∧ text next = rest := by
  induction h generalizing input with
  | nil =>
    obtain ⟨next, hclose, hnext⟩ := take_of_text htext
    exact ⟨next, innerList_of_close hclose, hnext⟩
  | @cons bareText params blanks items bare hitem hparams hspaces hbetween hitems ih =>
    rw [List.append_assoc, List.append_assoc, List.append_assoc] at htext
    have hclose : take closeParenthesis input = none := by
      rw [take_eq_none_iff, htext]
      exact hitem.head _ (by decide)
    -- Behind the parameters there is a space or the end of the list.
    have hhead : (blanks ++ (items ++ closeParenthesis :: rest)).head? = some sp ∨
        (blanks ++ (items ++ closeParenthesis :: rest)).head? = some closeParenthesis := by
      rcases blanks with _ | ⟨blank, blanks⟩
      · have hend : items = [] := by
          by_contra hne
          exact hbetween hne rfl
        subst hend
        exact .inr rfl
      · exact .inl (congrArg some (hspaces blank (List.mem_cons_self ..)))
    have hbehind : BehindParameters (blanks ++ (items ++ closeParenthesis :: rest)) := by
      constructor
      · intro byte hbyte
        rcases hhead with hhead | hhead <;> rw [hhead] at hbyte <;> rw [← Option.some.inj hbyte] <;> rfl
      · rcases hhead with hhead | hhead <;> rw [hhead] <;> exact fun heq => absurd (Option.some.inj heq) (by decide)
    obtain ⟨afterItem, hread, hafter⟩ := item_complete hitem htext (hparams.behindItem hbehind.behindItem)
    obtain ⟨afterParams, hparameters, hend⟩ := parameters_complete hparams hafter hbehind
    have hinner : innerItem input = some afterParams := by
      rw [innerItem, hread]
      exact hparameters
    rw [innerList_of_item hclose hinner, if_neg]
    · exact ih (spaces_of_text hspaces hend (hitems.head _))
    · rcases input_cases afterParams with ⟨hempty, hnil⟩ | ⟨hempty, hcons⟩
      · rw [hend] at hnil
        rw [hnil] at hhead
        simp at hhead
      · rw [hend] at hcons
        rw [hcons, List.head?_cons, Option.some.injEq, Option.some.injEq] at hhead
        rw [hempty]
        rintro (hbad | hbad)
        · cases hbad
        · exact hhead.elim hbad.1 hbad.2

/-- **What is read is the value of a member.** -/
theorem member_sound (h : member input = some (value, next)) :
    ∃ valueText member', text input = valueText ++ text next ∧ IsMemberValue valueText member' ∧
      value = member'.structured := by
  unfold member at h
  rcases take_cases openParenthesis input with ⟨behind, htake, htext⟩ | ⟨htake, -⟩
  · rw [htake] at h
    obtain ⟨next', hlist, heq⟩ := Option.map_eq_some_iff.mp h
    obtain ⟨rfl, rfl⟩ := Prod.mk.inj heq
    obtain ⟨close, hitems, hparams⟩ := Option.bind_eq_some_iff.mp hlist
    obtain ⟨blanks, hblanks, hspaces⟩ := text_spaces behind
    obtain ⟨items, hread, hvalid⟩ := innerList_sound hitems
    obtain ⟨params, hend, hparameters⟩ := parameters_sound hparams
    refine ⟨_, _, ?_, .innerList hspaces hvalid hparameters, rfl⟩
    rw [htext, hblanks, hread, hend]
    simp
  · rw [htake] at h
    obtain ⟨⟨read, behind⟩, hitem, hrest⟩ := Option.bind_eq_some_iff.mp h
    obtain ⟨next', hparams, heq⟩ := Option.map_eq_some_iff.mp hrest
    obtain ⟨rfl, rfl⟩ := Prod.mk.inj heq
    obtain ⟨bareText, bare, htext, hbare, rfl⟩ := item_sound hitem
    obtain ⟨params, hend, hparameters⟩ := parameters_sound hparams
    refine ⟨_, _, ?_, .item hbare hparameters, rfl⟩
    rw [htext, hend, List.append_assoc]

/-- **The value of a member is read**, in front of what may follow it. -/
theorem member_complete (h : IsMemberValue text' member') (htext : text input = text' ++ rest)
    (hrest : BehindParameters rest) : ∃ next, member input = some (member'.structured, next) ∧ text next = rest := by
  unfold member
  cases h with
  | item hitem hparams =>
    rw [List.append_assoc] at htext
    have htake : take openParenthesis input = none := by
      rw [take_eq_none_iff, htext]
      exact hitem.head _ (by decide)
    obtain ⟨behind, hread, hbehind⟩ := item_complete hitem htext (hparams.behindItem hrest.behindItem)
    obtain ⟨next, hparameters, hnext⟩ := parameters_complete hparams hbehind hrest
    rw [htake, hread]
    dsimp only [Option.bind_some]
    rw [hparameters]
    exact ⟨next, rfl, hnext⟩
  | @innerList blanks items params hspaces hitems hparams =>
    rw [List.cons_append, List.append_assoc, List.append_assoc, List.cons_append] at htext
    obtain ⟨behind, htake, hbehind⟩ := take_of_text htext
    obtain ⟨close, hlist, hclose⟩ := innerList_complete hitems (spaces_of_text hspaces hbehind (hitems.head _))
    obtain ⟨next, hparameters, hnext⟩ := parameters_complete hparams hclose hrest
    rw [htake]
    dsimp only
    rw [hlist, Option.bind_some, hparameters]
    exact ⟨next, rfl, hnext⟩

end

end HttpStructuredParser

end Ruvia.Http
