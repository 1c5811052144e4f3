import Ruvia.Http.ConditionalRequest
import Ruvia.Http.StructuredMembers
import Ruvia.Http.TrailerFields

/-!
# `Http.Priority` — the Priority field

`parse_http_priority`, of one value and of all Priority field lines. The lines are read without being put together
(`PriorityHeaderInput`), and their text is what they are put together. A value is accepted when it is a dictionary of
RFC 8941, and its last `u` and `i` members are the priority (`parsePriorityMembers_iff`, `priority_parsing`).
-/

namespace Ruvia.Http

open Library

/-! ## The fields -/

/-- `http_priority_urgency`. -/
structure HttpPriorityUrgency where
  value : Nat
  valid : value ≤ 7
  deriving DecidableEq, Repr

theorem HttpPriorityUrgency.toNat_valid {value : Int} (h : 0 ≤ value ∧ value ≤ 7) : value.toNat ≤ 7 := by
  omega

def HttpPriorityUrgency.tryFromValue (value : Int) : Option HttpPriorityUrgency :=
  if h : 0 ≤ value ∧ value ≤ 7 then some ⟨value.toNat, toNat_valid h⟩ else none

structure HttpPriorityFields where
  urgency : Option HttpPriorityUrgency := none
  incremental : Option Bool := none
  deriving DecidableEq, Repr

inductive HttpPriorityError where
  | invalidSyntax
  deriving DecidableEq, Repr

/-- What a member tells of the urgency. -/
def urgencyOf (item : HttpStructuredItem) : Option HttpPriorityUrgency :=
  if item.kind = .integer then HttpPriorityUrgency.tryFromValue item.integer else none

/-- What a member tells of the incremental flag. -/
def incrementalOf (item : HttpStructuredItem) : Option Bool := if item.kind = .boolean then some item.boolean else none

/-- The fields behind a member. -/
def HttpPriorityFields.set (fields : HttpPriorityFields) (key : Bytes) (item : HttpStructuredItem) :
    HttpPriorityFields :=
  let fields := if key = lit "u" then { fields with urgency := urgencyOf item } else fields
  if key = lit "i" then { fields with incremental := incrementalOf item } else fields

/-! ## The parser -/

namespace HttpStructuredParser

open StructuredInput (empty peek data advance text)

/-- A member of a dictionary; without a value it is true. -/
inductive IsMember : Bytes → Bytes → MemberValue → Prop where
  | flag {name params : Bytes} (hname : IsKey name) (hparams : IsParameters params) :
      IsMember (name ++ params) name (.item (.boolean true))
  | value {name valueText : Bytes} {value : MemberValue} (hname : IsKey name) (hvalue : IsMemberValue valueText value) :
      IsMember (name ++ equalsSign :: valueText) name value

section

variable {ι : Type} [StructuredInput ι] {input next : ι} {name memberText rest : Bytes} {value : MemberValue}
  {read : HttpStructuredItem}

/-- The key and the value of a member in `parse_priority_members`. -/
def priorityMember (input : ι) : Option (Bytes × HttpStructuredItem × ι) :=
  let (name, behind) := key input
  if name = [] then none
  else
    match take equalsSign behind with
    | some value => (member value).map (name, ·)
    | none => (parameters behind).map fun next => (name, { kind := .boolean, boolean := true }, next)

theorem priorityMember_sound (h : priorityMember input = some (name, read, next)) :
    ∃ memberText value, text input = memberText ++ text next ∧ IsMember memberText name value ∧
      read = value.structured := by
  obtain ⟨hkey, htext⟩ := key_spec input
  unfold priorityMember at h
  dsimp only at h
  by_cases hempty : (key input).1 = []
  · rw [if_pos hempty] at h
    cases h
  rw [if_neg hempty] at h
  have hvalid : IsKey (key input).1 := by
    rw [hkey] at hempty ⊢
    exact isKey_of_keyOf hempty
  rcases take_cases equalsSign (key input).2 with ⟨behind, htake, hbehind⟩ | ⟨htake, -⟩
  · rw [htake] at h
    obtain ⟨⟨item, next'⟩, hmember, heq⟩ := Option.map_eq_some_iff.mp h
    obtain ⟨rfl, hitem⟩ := Prod.mk.inj heq
    obtain ⟨rfl, rfl⟩ := Prod.mk.inj hitem
    obtain ⟨valueText, value, hread, hvalue, rfl⟩ := member_sound hmember
    refine ⟨_, value, ?_, .value hvalid hvalue, rfl⟩
    rw [List.append_assoc, List.cons_append, ← hread, ← hbehind]
    exact htext
  · rw [htake] at h
    obtain ⟨next', hparameters, heq⟩ := Option.map_eq_some_iff.mp h
    obtain ⟨rfl, hitem⟩ := Prod.mk.inj heq
    obtain ⟨rfl, rfl⟩ := Prod.mk.inj hitem
    obtain ⟨params, hread, hparams⟩ := parameters_sound hparameters
    refine ⟨_, .item (.boolean true), ?_, .flag hvalid hparams, rfl⟩
    rw [List.append_assoc, ← hread]
    exact htext

theorem priorityMember_complete (h : IsMember memberText name value) (htext : text input = memberText ++ rest)
    (hrest : BehindParameters rest) :
    ∃ next, priorityMember input = some (name, value.structured, next) ∧ text next = rest := by
  have hne : ∀ {name : Bytes}, IsKey name → name ≠ [] := by
    rintro name hname rfl
    cases hname
  unfold priorityMember
  dsimp only
  cases h with
  | flag hname hparams =>
    have hbehind := hparams.behindItem hrest.behindItem
    rw [List.append_assoc] at htext
    obtain ⟨hkey, hafter⟩ := key_of_text hname htext (hbehind.stop (by decide))
    have htake : take equalsSign (key input).2 = none := by
      rw [take_eq_none_iff, hafter]
      intro hhead
      exact absurd (hbehind equalsSign hhead) (by decide)
    obtain ⟨next, hparameters, hnext⟩ := parameters_complete hparams hafter hrest
    rw [hkey, if_neg (hne hname), htake]
    dsimp only
    rw [hparameters]
    exact ⟨next, rfl, hnext⟩
  | value hname hvalue =>
    rw [List.append_assoc, List.cons_append] at htext
    obtain ⟨hkey, hafter⟩ := key_of_text hname htext (fun byte hbyte => by
      rw [← Option.some.inj hbyte]
      rfl)
    obtain ⟨behind, htake, hbehind⟩ := take_of_text hafter
    obtain ⟨next, hmember, hnext⟩ := member_complete hvalue hbehind hrest
    rw [hkey, if_neg (hne hname), htake]
    dsimp only
    rw [hmember]
    exact ⟨next, rfl, hnext⟩

theorem IsKey.start (h : IsKey name) : ∃ first tail, name = first :: tail ∧ isKeyStart first = true := by
  cases h with
  | mk hfirst hrest => exact ⟨_, _, rfl, hfirst⟩

theorem IsMember.start (h : IsMember memberText name value) :
    ∃ first tail, memberText = first :: tail ∧ isKeyStart first = true := by
  cases h with
  | flag hname hparams | value hname hvalue =>
    obtain ⟨first, tail, rfl, hfirst⟩ := hname.start
    exact ⟨first, _, List.cons_append, hfirst⟩

theorem text_ows (input : ι) : ∃ blanks, text input = blanks ++ text (ows input) ∧ IsOws blanks :=
  ⟨(text input).takeWhile isHttpOwsChar, by rw [ows, text_skipWhile, List.takeWhile_append_dropWhile],
    fun _ hbyte => List.mem_takeWhile_imp hbyte⟩

theorem priorityMember_length (hmember : priorityMember input = some (name, read, next)) {behind : ι}
    (htake : take comma (ows next) = some behind) : (text (ows behind)).length < (text input).length := by
  obtain ⟨memberText, value, htext, -⟩ := priorityMember_sound hmember
  obtain ⟨before, hbefore, -⟩ := text_ows next
  obtain ⟨after, hafter, -⟩ := text_ows behind
  rw [htext, hbefore, text_of_take htake, hafter]
  simp only [List.length_append, List.length_cons]
  omega

/-- The loop of `parse_priority_members`. -/
def priorityMembersLoop (input : ι) (fields : HttpPriorityFields) : Except HttpPriorityError HttpPriorityFields :=
  if empty input = true then .ok fields
  else
    match _h : priorityMember input with
    | none => .error .invalidSyntax
    | some (name, item, next) =>
      let fields := fields.set name item
      if empty (ows next) = true then .ok fields
      else
        match _h' : take comma (ows next) with
        | none => .error .invalidSyntax
        | some behind =>
          if empty (ows behind) = true then .error .invalidSyntax else priorityMembersLoop (ows behind) fields
termination_by (text input).length
decreasing_by exact priorityMember_length _h _h'

variable {fields : HttpPriorityFields}

theorem priorityMembersLoop_of_member (hempty : empty input = false)
    (hmember : priorityMember input = some (name, read, next)) :
    priorityMembersLoop input fields =
      if empty (ows next) = true then .ok (fields.set name read)
      else
        (match take comma (ows next) with
        | none => .error .invalidSyntax
        | some behind =>
          if empty (ows behind) = true then .error .invalidSyntax
          else priorityMembersLoop (ows behind) (fields.set name read)) := by
  rw [priorityMembersLoop, if_neg (by rw [hempty]; exact Bool.false_ne_true)]
  split
  · rename_i hnone
    cases hmember.symm.trans hnone
  · rename_i name' item' next' hsome
    obtain ⟨rfl, hitem⟩ := Prod.mk.inj (Option.some.inj (hmember.symm.trans hsome))
    obtain ⟨rfl, rfl⟩ := Prod.mk.inj hitem
    by_cases hend : empty (ows next) = true
    · rw [if_pos hend, if_pos hend]
    · rw [if_neg hend, if_neg hend]
      split
      · rename_i hnone
        rw [hnone]
      · rename_i behind hsome
        rw [hsome]

theorem priorityMembersLoop_of_none (hempty : empty input = false) (hmember : priorityMember input = none) :
    priorityMembersLoop input fields = .error .invalidSyntax := by
  rw [priorityMembersLoop, if_neg (by rw [hempty]; exact Bool.false_ne_true)]
  split
  · rfl
  · rename_i name' item' next' hsome
    cases hmember.symm.trans hsome

def parsePriorityMembers (input : ι) : Except HttpPriorityError HttpPriorityFields :=
  priorityMembersLoop (spaces input) {}

/-! ## Dictionaries -/

/-- The members of a dictionary, with the whitespace behind it. -/
inductive IsMembers : Bytes → List (Bytes × MemberValue) → Prop where
  | last {memberText blanks name : Bytes} {value : MemberValue} (hmember : IsMember memberText name value)
      (hblanks : IsOws blanks) : IsMembers (memberText ++ blanks) [(name, value)]
  | cons {memberText before after rest name : Bytes} {value : MemberValue} {members : List (Bytes × MemberValue)}
      (hmember : IsMember memberText name value) (hbefore : IsOws before) (hafter : IsOws after)
      (hrest : IsMembers rest members) :
      IsMembers (memberText ++ (before ++ comma :: (after ++ rest))) ((name, value) :: members)

/-- A dictionary field value. -/
inductive IsDictionary : Bytes → List (Bytes × MemberValue) → Prop where
  | empty {blanks : Bytes} (hblanks : IsSpaces blanks) : IsDictionary blanks []
  | members {blanks text : Bytes} {members : List (Bytes × MemberValue)} (hblanks : IsSpaces blanks)
      (hmembers : IsMembers text members) : IsDictionary (blanks ++ text) members

/-- The fields behind some members. -/
def setAll (fields : HttpPriorityFields) (members : List (Bytes × MemberValue)) : HttpPriorityFields :=
  members.foldl (fun fields member => fields.set member.1 member.2.structured) fields

variable {membersText : Bytes} {members : List (Bytes × MemberValue)}

theorem IsMembers.start (h : IsMembers membersText members) :
    ∃ first tail, membersText = first :: tail ∧ isKeyStart first = true := by
  cases h with
  | last hmember hblanks | cons hmember hbefore hafter hrest =>
    obtain ⟨first, tail, rfl, hfirst⟩ := hmember.start
    exact ⟨first, _, List.cons_append, hfirst⟩

theorem priorityMembersLoop_sound {fields' : HttpPriorityFields} (hempty : empty input = false)
    (h : priorityMembersLoop input fields = .ok fields') :
    ∃ members, IsMembers (text input) members ∧ fields' = setAll fields members := by
  induction hlength : (text input).length using Nat.strong_induction_on generalizing input fields with
  | _ n ih =>
    subst hlength
    cases hmember : priorityMember input with
    | none =>
      rw [priorityMembersLoop_of_none hempty hmember] at h
      cases h
    | some member =>
      obtain ⟨name, read, next⟩ := member
      obtain ⟨memberText, value, htext, hvalid, rfl⟩ := priorityMember_sound hmember
      obtain ⟨before, hbefore, hblank⟩ := text_ows next
      rw [priorityMembersLoop_of_member hempty hmember] at h
      by_cases hend : empty (ows next) = true
      · rw [if_pos hend] at h
        refine ⟨[(name, value)], ?_, (Except.ok.inj h).symm⟩
        rw [htext, hbefore, StructuredInput.text_of_empty _ hend, List.append_nil]
        exact .last hvalid hblank
      · rw [if_neg hend] at h
        rcases take_cases comma (ows next) with ⟨behind, htake, hbehind⟩ | ⟨htake, -⟩
        · rw [htake] at h
          dsimp only at h
          split_ifs at h with hlast
          obtain ⟨after, hafter, hblank'⟩ := text_ows behind
          obtain ⟨members, hmembers, rfl⟩ := ih _ (priorityMember_length hmember htake) (by simpa using hlast) h rfl
          refine ⟨(name, value) :: members, ?_, rfl⟩
          rw [htext, hbefore, hbehind, hafter]
          exact .cons hvalid hblank hblank' hmembers
        · rw [htake] at h
          cases h

theorem behindParameters_of_ows {blanks behind : Bytes} (hblanks : IsOws blanks)
    (hbehind : behind = [] ∨ behind.head? = some comma) : BehindParameters (blanks ++ behind) := by
  have hhead : ∀ byte ∈ (blanks ++ behind).head?, byte = sp ∨ byte = htab ∨ byte = comma := by
    intro byte hbyte
    rcases blanks with _ | ⟨blank, blanks⟩
    · rcases hbehind with rfl | hcomma
      · cases hbyte
      · rw [List.nil_append, hcomma] at hbyte
        exact .inr (.inr (Option.some.inj hbyte).symm)
    · have hblank := hblanks byte (by rw [Option.some.inj hbyte]; exact List.mem_cons_self ..)
      simp only [isHttpOwsChar, Bool.or_eq_true, beq_iff_eq] at hblank
      exact hblank.imp_right .inl
  constructor
  · intro byte hbyte
    rcases hhead byte hbyte with rfl | rfl | rfl <;> rfl
  · intro heq
    rcases hhead semicolon heq with hbad | hbad | hbad <;> exact absurd hbad (by decide)

theorem ows_of_text {blanks behind : Bytes} (hblanks : IsOws blanks) (htext : text input = blanks ++ behind)
    (hbehind : ∀ byte, behind.head? = some byte → isHttpOwsChar byte = false) : text (ows input) = behind := by
  rw [ows, text_skipWhile, htext]
  exact Library.dropWhile_append_stop hblanks hbehind

theorem priorityMembersLoop_complete (h : IsMembers membersText members) (htext : text input = membersText) :
    priorityMembersLoop input fields = .ok (setAll fields members) := by
  induction h generalizing input fields with
  | last hmember hblanks =>
    obtain ⟨first, tail, hcons, -⟩ := hmember.start
    have hempty : empty input = false := by
      rw [hcons] at htext
      exact (input_of_text_cons htext).1
    have hbehind := behindParameters_of_ows hblanks (.inl rfl)
    rw [List.append_nil] at hbehind
    obtain ⟨next, hread, hnext⟩ := priorityMember_complete hmember htext hbehind
    have hend : empty (ows next) = true :=
      empty_of_text_nil (ows_of_text hblanks (hnext.trans (List.append_nil _).symm) nofun)
    rw [priorityMembersLoop_of_member hempty hread, if_pos hend]
    rfl
  | @cons memberText before after rest name value members hmember hbefore hafter hrest ih =>
    obtain ⟨first, tail, hcons, -⟩ := hmember.start
    have hempty : empty input = false := by
      rw [hcons] at htext
      exact (input_of_text_cons htext).1
    obtain ⟨next, hread, hnext⟩ := priorityMember_complete hmember htext (behindParameters_of_ows hbefore (.inr rfl))
    have hcomma : text (ows next) = comma :: (after ++ rest) :=
      ows_of_text hbefore hnext fun byte hbyte => by
        rw [← Option.some.inj hbyte]
        rfl
    obtain ⟨behind, htake, hbehind⟩ := take_of_text hcomma
    obtain ⟨start, rest', hstart, hfirst⟩ := hrest.start
    have hmembers : text (ows behind) = rest := by
      apply ows_of_text hafter hbehind
      intro byte hbyte
      rw [hstart, List.head?_cons, Option.some.injEq] at hbyte
      subst hbyte
      rw [← Bool.not_eq_true]
      intro hblank
      simp only [isHttpOwsChar, Bool.or_eq_true, beq_iff_eq] at hblank
      rcases hblank with rfl | rfl <;> exact absurd hfirst (by decide)
    have hmore : empty (ows next) = false := (input_of_text_cons hcomma).1
    have hmore' : empty (ows behind) = false := by
      rw [hstart] at hmembers
      exact (input_of_text_cons hmembers).1
    rw [priorityMembersLoop_of_member hempty hread, hmore, if_neg Bool.false_ne_true, htake]
    dsimp only
    rw [hmore', if_neg Bool.false_ne_true, ih hmembers]
    rfl

/-- **A dictionary is accepted**, and nothing else is. -/
theorem parsePriorityMembers_iff :
    parsePriorityMembers input = .ok fields ↔
      ∃ members, IsDictionary (text input) members ∧ fields = setAll {} members := by
  unfold parsePriorityMembers
  constructor
  · intro h
    obtain ⟨blanks, hblanks, hspaces⟩ := text_spaces input
    cases hempty : empty (spaces input) with
    | true =>
      rw [priorityMembersLoop, if_pos hempty] at h
      rw [StructuredInput.text_of_empty _ hempty, List.append_nil] at hblanks
      exact ⟨[], by rw [hblanks]; exact .empty hspaces, (Except.ok.inj h).symm⟩
    | false =>
      obtain ⟨members, hmembers, hfields⟩ := priorityMembersLoop_sound hempty h
      exact ⟨members, by rw [hblanks]; exact .members hspaces hmembers, hfields⟩
  · rintro ⟨members, hdictionary, rfl⟩
    generalize hinput : text input = inputText at hdictionary
    cases hdictionary with
    | empty hblanks =>
      have hnil : text (spaces input) = [] :=
        spaces_of_text hblanks (hinput.trans (List.append_nil _).symm) (by simp)
      rw [priorityMembersLoop, if_pos (empty_of_text_nil hnil)]
      rfl
    | members hblanks hmembers =>
      obtain ⟨first, tail, hstart, hfirst⟩ := hmembers.start
      apply priorityMembersLoop_complete hmembers
      apply spaces_of_text hblanks hinput
      rw [hstart]
      intro hblank
      rw [Option.some.inj hblank] at hfirst
      exact absurd hfirst (by decide)

end

end HttpStructuredParser

/-! ## The priority of a dictionary -/

open HttpStructuredParser (MemberValue IsDictionary setAll)

/-- The last member with a name. -/
def lastMember (name : Bytes) (members : List (Bytes × MemberValue)) : Option MemberValue :=
  ((members.filter (·.1 == name)).getLast?).map (·.2)

/-- An integer between 0 and 7. -/
def memberUrgency : MemberValue → Option HttpPriorityUrgency
  | .item (.integer value) => HttpPriorityUrgency.tryFromValue value
  | _ => none

def memberIncremental : MemberValue → Option Bool
  | .item (.boolean value) => some value
  | _ => none

/-- **The priority of a dictionary** is in its last `u` and its last `i`. -/
def priorityOf (members : List (Bytes × MemberValue)) : HttpPriorityFields where
  urgency := (lastMember (lit "u") members).bind memberUrgency
  incremental := (lastMember (lit "i") members).bind memberIncremental

section

variable {name : Bytes} {member : Bytes × MemberValue} {members : List (Bytes × MemberValue)}
  {fields : HttpPriorityFields} {value : Bytes}

theorem urgencyOf_structured (value : MemberValue) : urgencyOf value.structured = memberUrgency value := by
  rcases value with bare | _
  · cases bare <;> rfl
  · rfl

theorem incrementalOf_structured (value : MemberValue) : incrementalOf value.structured = memberIncremental value := by
  rcases value with bare | _
  · cases bare <;> rfl
  · rfl

theorem lastMember_append (name : Bytes) (members : List (Bytes × MemberValue)) (member : Bytes × MemberValue) :
    lastMember name (members ++ [member]) = if member.1 = name then some member.2 else lastMember name members := by
  unfold lastMember
  rw [List.filter_append]
  by_cases hname : member.1 = name
  · rw [if_pos hname, List.filter_cons_of_pos (by rw [beq_iff_eq]; exact hname), List.filter_nil, List.getLast?_concat]
    rfl
  · rw [if_neg hname, List.filter_cons_of_neg (by rw [beq_iff_eq]; exact hname), List.filter_nil, List.append_nil]

theorem setAll_append (fields : HttpPriorityFields) (members : List (Bytes × MemberValue))
    (member : Bytes × MemberValue) :
    setAll fields (members ++ [member]) = (setAll fields members).set member.1 member.2.structured := by
  simp only [setAll, List.foldl_append, List.foldl_cons, List.foldl_nil]

/-- **The members are set one after the other**: the last ones stay. -/
theorem setAll_eq (members : List (Bytes × MemberValue)) : setAll {} members = priorityOf members := by
  induction members using List.reverseRecOn with
  | nil => rfl
  | append_singleton members member ih =>
    rw [setAll_append, ih]
    unfold priorityOf HttpPriorityFields.set
    rw [lastMember_append, lastMember_append, urgencyOf_structured, incrementalOf_structured]
    by_cases hurgency : member.1 = lit "u"
    · rw [hurgency, if_pos rfl, if_pos rfl, if_neg (by decide), if_neg (by decide)]
      rfl
    · by_cases hincremental : member.1 = lit "i"
      · rw [hincremental, if_pos rfl, if_pos rfl, if_neg (by decide), if_neg (by decide)]
        rfl
      · rw [if_neg hurgency, if_neg hurgency, if_neg hincremental, if_neg hincremental]

end

/-- `parse_http_priority` of one value. -/
def parseHttpPriority (value : Bytes) : Except HttpPriorityError HttpPriorityFields :=
  HttpStructuredParser.parsePriorityMembers (HttpStructuredTextInput.mk value)

/-! ## Field lines -/

/-- `priority_header_input`; the headers behind `next_header_`. -/
structure PriorityHeaderState where
  headers : List HttpHeaderView
  remaining : Bytes := []
  pending : Bytes := []
  separator : Bool := false

def isPriorityHeader (header : HttpHeaderView) : Bool := httpAsciiEqualsIgnoreCase header.name (lit "priority")

/-- `select_next`: the value of the next Priority line, and the headers behind it. -/
def selectNext : List HttpHeaderView → Option (Bytes × List HttpHeaderView)
  | [] => none
  | header :: headers => if isPriorityHeader header then some (header.value, headers) else selectNext headers

namespace PriorityHeaderState

/-- `normalize`; behind a selected line its separator remains. -/
def normalize (state : PriorityHeaderState) : PriorityHeaderState :=
  if state.remaining ≠ [] then state
  else if _h : state.separator = true then
    normalize { state with separator := false, remaining := state.pending }
  else
    match selectNext state.headers with
    | some (value, headers) => { headers, remaining := lit ", ", pending := value, separator := true }
    | none => { state with headers := [] }
termination_by if state.separator then 1 else 0
decreasing_by
  rw [if_pos _h]
  exact Nat.zero_lt_one

/-- The constructor: the first line has no separator in front. -/
def ofHeaders (headers : List HttpHeaderView) : PriorityHeaderState :=
  match selectNext headers with
  | some (value, behind) => normalize { headers := behind, remaining := value }
  | none => normalize { headers := [] }

def advance (state : PriorityHeaderState) : PriorityHeaderState :=
  normalize { state with remaining := state.remaining.drop 1 }

end PriorityHeaderState

/-- The values of the Priority lines. -/
def priorityLines (headers : List HttpHeaderView) : List Bytes := (headers.filter isPriorityHeader).map (·.value)

/-- Lines behind another one. -/
def behindLine (lines : List Bytes) : Bytes := lines.flatMap (lit ", " ++ ·)

theorem selectNext_cases (headers : List HttpHeaderView) :
    (selectNext headers = none ∧ priorityLines headers = []) ∨
      ∃ value behind, selectNext headers = some (value, behind) ∧
        priorityLines headers = value :: priorityLines behind := by
  induction headers with
  | nil => exact .inl ⟨rfl, rfl⟩
  | cons header headers ih =>
    rw [selectNext, priorityLines]
    by_cases hpriority : isPriorityHeader header = true
    · rw [if_pos hpriority, List.filter_cons_of_pos hpriority]
      exact .inr ⟨_, _, rfl, rfl⟩
    · rw [if_neg hpriority, List.filter_cons_of_neg hpriority]
      exact ih

namespace PriorityHeaderState

/-- What is left to read. -/
def text (state : PriorityHeaderState) : Bytes :=
  state.remaining ++ ((if state.separator then state.pending else []) ++ behindLine (priorityLines state.headers))

/-- Nothing remains only at the end, and what remains in front of a pending line is its separator. -/
structure Normal (state : PriorityHeaderState) : Prop where
  finished : state.remaining = [] → state.separator = false ∧ priorityLines state.headers = []
  joint : state.separator = true → state.remaining = lit ", " ∨ state.remaining = lit " "

variable {state : PriorityHeaderState}

theorem normalize_of_ne_nil (h : state.remaining ≠ []) : state.normalize = state := by
  rw [normalize, if_pos h]

/-- Behind a line, the next one is selected. -/
theorem normalize_of_line (hseparator : state.separator = false) (hjoint : state.remaining = []) :
    state.normalize.text = state.text ∧ state.normalize.Normal := by
  have hpending : state.text = behindLine (priorityLines state.headers) := by
    rw [text, hjoint, hseparator, if_neg Bool.false_ne_true]
    rfl
  rw [hpending, normalize, if_neg (not_not.mpr hjoint), dif_neg (by rw [hseparator]; exact Bool.false_ne_true)]
  rcases selectNext_cases state.headers with ⟨hnone, hlines⟩ | ⟨value, behind, hsome, hlines⟩
  · rw [hnone]
    refine ⟨?_, ⟨fun _ => ⟨hseparator, rfl⟩, ?_⟩⟩
    · rw [text, hlines, hjoint, hseparator]
      rfl
    · intro htrue
      rw [hseparator] at htrue
      cases htrue
  · rw [hsome]
    refine ⟨?_, ⟨fun hnil => ?_, fun _ => .inl rfl⟩⟩
    · rw [text, hlines, if_pos rfl]
      rfl
    · cases hnil

theorem normalize_spec (hjoint : state.separator = true →
    state.remaining = lit ", " ∨ state.remaining = lit " " ∨ state.remaining = []) :
    state.normalize.text = state.text ∧ state.normalize.Normal := by
  by_cases hnil : state.remaining = []
  · cases hseparator : state.separator with
    | false => exact normalize_of_line hseparator hnil
    | true =>
      have hnext : state.normalize = normalize { state with separator := false, remaining := state.pending } := by
        conv_lhs => rw [normalize, if_neg (not_not.mpr hnil), dif_pos hseparator]
      have hsame : state.text = text { state with separator := false, remaining := state.pending } := by
        rw [text, text, hnil, hseparator]
        rfl
      rw [hnext, hsame]
      by_cases hpending : state.pending = []
      · exact normalize_of_line rfl hpending
      · rw [normalize_of_ne_nil hpending]
        exact ⟨rfl, ⟨fun hnil => absurd hnil hpending, nofun⟩⟩
  · rw [normalize_of_ne_nil hnil]
    refine ⟨rfl, ⟨fun hempty => absurd hempty hnil, fun htrue => ?_⟩⟩
    rcases hjoint htrue with hjoint | hjoint | hjoint
    · exact .inl hjoint
    · exact .inr hjoint
    · exact absurd hjoint hnil

theorem Normal.advance (h : state.Normal) :
    state.advance.text = text { state with remaining := state.remaining.drop 1 } ∧ state.advance.Normal := by
  apply normalize_spec
  intro hseparator
  rcases h.joint hseparator with hjoint | hjoint
  · exact .inr (.inl (by rw [hjoint]; rfl))
  · exact .inr (.inr (by rw [hjoint]; rfl))

theorem normal_ofHeaders (headers : List HttpHeaderView) :
    (ofHeaders headers).text = joinedLines (priorityLines headers) ∧ (ofHeaders headers).Normal := by
  have hjoin : ∀ (line : Bytes) (lines : List Bytes), joinedLines (line :: lines) = line ++ behindLine lines := by
    intro line lines
    unfold joinedLines
    induction lines generalizing line with
    | nil => rw [List.intercalate_singleton, behindLine, List.flatMap_nil, List.append_nil]
    | cons next lines ih =>
      rw [List.intercalate_cons_cons, ih, List.append_assoc, behindLine, behindLine, List.flatMap_cons]
      rfl
  unfold ofHeaders
  rcases selectNext_cases headers with ⟨hnone, hlines⟩ | ⟨value, behind, hsome, hlines⟩
  · rw [hnone, hlines]
    exact normalize_of_line rfl rfl
  · rw [hsome, hlines, hjoin]
    exact normalize_spec nofun

end PriorityHeaderState

/-- `priority_header_input` between two calls. -/
structure PriorityHeaderInput where
  state : PriorityHeaderState
  normal : state.Normal

def PriorityHeaderInput.ofHeaders (headers : List HttpHeaderView) : PriorityHeaderInput :=
  ⟨PriorityHeaderState.ofHeaders headers, (PriorityHeaderState.normal_ofHeaders headers).2⟩

namespace PriorityHeaderInput

variable {input : PriorityHeaderInput}

theorem text_of_empty (h : input.state.remaining = []) : input.state.text = [] := by
  obtain ⟨hseparator, hlines⟩ := input.normal.finished h
  rw [PriorityHeaderState.text, h, hseparator, hlines]
  rfl

theorem text_of_not_empty (h : input.state.remaining ≠ []) :
    input.state.text = input.state.remaining.headD 0 :: input.state.advance.text := by
  obtain ⟨first, rest, hcons⟩ := List.exists_cons_of_ne_nil h
  rw [input.normal.advance.1, PriorityHeaderState.text, PriorityHeaderState.text, hcons]
  rfl

/-- A run without a comma and a space ends with the line. -/
theorem contiguous (input : PriorityHeaderInput) (length : Nat)
    (h : ∀ byte ∈ input.state.text.take length, byte ≠ comma ∧ byte ≠ sp) :
    input.state.remaining.take length = input.state.text.take length := by
  cases hseparator : input.state.separator with
  | true =>
    cases length with
    | zero => rfl
    | succ length =>
      have hmem : ∀ byte, input.state.remaining.head? = some byte → byte ∈ input.state.text.take (length + 1) := by
        intro byte hbyte
        obtain ⟨rest, hcons⟩ := List.head?_eq_some_iff.mp hbyte
        rw [PriorityHeaderState.text, hcons]
        exact List.mem_cons_self ..
      rcases input.normal.joint hseparator with hjoint | hjoint
      · exact absurd rfl (h comma (hmem comma (by rw [hjoint]; rfl))).1
      · exact absurd rfl (h sp (hmem sp (by rw [hjoint]; rfl))).2
  | false =>
    have htext : input.state.text = input.state.remaining ++ behindLine (priorityLines input.state.headers) := by
      rw [PriorityHeaderState.text, hseparator]
      rfl
    rw [htext] at h ⊢
    by_cases hlength : length ≤ input.state.remaining.length
    · rw [List.take_append_of_le_length hlength]
    · cases hlines : priorityLines input.state.headers with
      | nil => rw [behindLine, List.flatMap_nil, List.append_nil]
      | cons line lines =>
        rw [hlines] at h
        obtain ⟨extra, hextra⟩ := Nat.exists_eq_add_of_lt (Nat.not_le.mp hlength)
        have hmem : comma ∈ (input.state.remaining ++ behindLine (line :: lines)).take length := by
          rw [hextra, Nat.add_assoc, List.take_length_add_append]
          exact List.mem_append_right _ (List.mem_cons_self ..)
        exact absurd rfl (h comma hmem).1

end PriorityHeaderInput

instance : StructuredInput PriorityHeaderInput where
  empty input := input.state.remaining.isEmpty
  peek input := input.state.remaining.headD 0
  data input := input.state.remaining
  advance input := ⟨input.state.advance, input.normal.advance.2⟩
  text input := input.state.text
  text_of_empty _ h := PriorityHeaderInput.text_of_empty (List.isEmpty_iff.mp h)
  text_of_not_empty _ h := PriorityHeaderInput.text_of_not_empty (List.isEmpty_eq_false_iff.mp h)
  contiguous := PriorityHeaderInput.contiguous

/-- `parse_http_priority` of a header list. -/
def parseHttpPriorityHeaders (headers : List HttpHeaderView) : Except HttpPriorityError HttpPriorityFields :=
  HttpStructuredParser.parsePriorityMembers (PriorityHeaderInput.ofHeaders headers)

variable {fields : HttpPriorityFields}

theorem parseHttpPriority_iff {value : Bytes} :
    parseHttpPriority value = .ok fields ↔ ∃ members, IsDictionary value members ∧ fields = priorityOf members := by
  unfold parseHttpPriority
  rw [HttpStructuredParser.parsePriorityMembers_iff]
  simp only [setAll_eq]
  rfl

theorem parseHttpPriorityHeaders_iff {headers : List HttpHeaderView} :
    parseHttpPriorityHeaders headers = .ok fields ↔
      ∃ members, IsDictionary (joinedLines (priorityLines headers)) members ∧
        fields = priorityOf members := by
  unfold parseHttpPriorityHeaders
  rw [HttpStructuredParser.parsePriorityMembers_iff, ← (PriorityHeaderState.normal_ofHeaders headers).1]
  simp only [setAll_eq]
  rfl

/-- Results with the same successes are equal. -/
theorem priorityResult_ext {left right : Except HttpPriorityError HttpPriorityFields}
    (h : ∀ fields, left = .ok fields ↔ right = .ok fields) : left = right := by
  rcases left with ⟨⟩ | fields
  · rcases right with ⟨⟩ | fields
    · rfl
    · exact (h fields).mpr rfl
  · exact ((h fields).mp rfl).symm

/-- **The Priority field**: lines are read as one value, a value is a dictionary, and its last `u` and `i` count. -/
theorem priority_parsing :
    (∀ headers : List HttpHeaderView,
      parseHttpPriorityHeaders headers = parseHttpPriority (joinedLines (priorityLines headers))) ∧
    ∀ (value : Bytes) (fields : HttpPriorityFields),
      parseHttpPriority value = .ok fields ↔ ∃ members, IsDictionary value members ∧ fields = priorityOf members := by
  constructor
  · intro headers
    apply priorityResult_ext
    intro fields
    rw [parseHttpPriorityHeaders_iff, parseHttpPriority_iff]
  · intro value fields
    exact parseHttpPriority_iff

example : parseHttpPriority (lit "u=9, a=(1 \"x\";b);c=:YQ=:, u=5, i;d") = .ok ⟨some ⟨5, by decide⟩, some true⟩ := by
  decide +kernel
example : parseHttpPriority (lit "u=5, i=1.1234") = .error .invalidSyntax := by decide +kernel

end Ruvia.Http
