import Ruvia.Http.Syntax

/-!
# `Http.ConditionalRequest` — entity-tag preconditions

If-Match and If-None-Match are list fields, and their lines are evaluated one by one (`HttpEtagFieldCondition.update`).
A line end is as good as a comma: a tag cannot reach over it, because the separator of joined lines has a byte that no
tag has. So the outcome is that of the joined value (`etag_preconditions`), which is read by its grammar
(`EntityTagList`).
-/

namespace Ruvia.Http

open Library

/-! ## Entity-tags -/

/-- `etagc`. -/
def isEtagChar (byte : UInt8) : Bool := byte == 0x21 || (0x23 ≤ byte && byte ≤ 0x7e) || 0x80 ≤ byte

/-- An entity-tag: what stands between its quotes, and whether it is weak. -/
structure EntityTag where
  weak : Bool
  chars : Bytes
  valid : ∀ byte ∈ chars, isEtagChar byte = true

namespace EntityTag

def quoted (tag : EntityTag) : Bytes := dquote :: tag.chars ++ [dquote]

def text (tag : EntityTag) : Bytes := (if tag.weak then lit "W/" else []) ++ tag.quoted

/-- The strong comparison. -/
def StrongMatch (left right : EntityTag) : Prop :=
  left.weak = false ∧ right.weak = false ∧ left.chars = right.chars

/-- The weak comparison. -/
def WeakMatch (left right : EntityTag) : Prop := left.chars = right.chars

def Match (strong : Bool) (left right : EntityTag) : Prop :=
  if strong then left.StrongMatch right else left.WeakMatch right

end EntityTag

/-- What may stand around the tags of a list. -/
def IsOws (text : Bytes) : Prop := ∀ byte ∈ text, isHttpOwsChar byte = true

/-- A member of a list: a tag, or nothing, with OWS around it. -/
def IsListMember (text : Bytes) (tag : Option EntityTag) : Prop :=
  ∃ front back, IsOws front ∧ IsOws back ∧ text = front ++ tag.elim [] EntityTag.text ++ back

/-- A list of entity-tags, with empty members. -/
inductive EntityTagList : Bytes → List EntityTag → Prop
  | last {text tag} (h : IsListMember text tag) : EntityTagList text tag.toList
  | more {text tag rest tags} (h : IsListMember text tag) (hrest : EntityTagList rest tags) :
      EntityTagList (text ++ comma :: rest) (tag.toList ++ tags)

/-! ## The parser -/

/-- `http_trim_weak_etag_prefix`. -/
def httpTrimWeakEtagPrefix : Bytes → Bytes
  | 0x57 :: 0x2f :: rest => rest
  | value => value

/-- `http_is_weak_etag`. -/
def httpIsWeakEtag : Bytes → Bool
  | 0x57 :: 0x2f :: _ => true
  | _ => false

def httpStrongEtagEquals (left right : Bytes) : Bool := !httpIsWeakEtag left && !httpIsWeakEtag right && left == right

def httpWeakEtagEquals (left right : Bytes) : Bool := httpTrimWeakEtagPrefix left == httpTrimWeakEtagPrefix right

/-- The bytes up to the closing quote, and what stands behind it. -/
def scanEtagChars : Bytes → Option (Bytes × Bytes)
  | [] => none
  | byte :: rest =>
    if byte = dquote then some ([], rest)
    else if isEtagChar byte then (scanEtagChars rest).map fun (chars, behind) => (byte :: chars, behind)
    else none

/-- The entity-tag at the front, and what stands behind it. -/
def scanEntityTag (text : Bytes) : Option (Bytes × Bytes) :=
  let marker := if httpIsWeakEtag text then lit "W/" else []
  match text.drop marker.length with
  | [] => none
  | quote :: rest =>
    if quote = dquote then
      (scanEtagChars rest).map fun (chars, behind) => (marker ++ dquote :: chars ++ [dquote], behind)
    else none

def isEtagListFiller (byte : UInt8) : Bool := isHttpOwsChar byte || byte == comma

/-- What a pass of the loop of `http_parse_etag_list_matches` finds. -/
inductive EtagListStep where
  | atEnd
  | malformed
  | found (entityTag rest : Bytes)
  deriving DecidableEq, Repr

def etagListStep (values : Bytes) : EtagListStep :=
  match values.dropWhile isEtagListFiller with
  | [] => .atEnd
  | first :: more =>
    match scanEntityTag (first :: more) with
    | none => .malformed
    | some (entityTag, behind) =>
      if behind.dropWhile isHttpOwsChar = [] ∨ (behind.dropWhile isHttpOwsChar).head? = some comma then
        .found entityTag (behind.dropWhile isHttpOwsChar)
      else .malformed

/-- `http_etag_list_match_result`. -/
structure HttpEtagListMatchResult where
  valid : Bool
  matched : Bool
  deriving DecidableEq, Repr

/-! ## Scanning a tag -/

section

variable {text behind : Bytes}

theorem scanEtagChars_eq_some {chars : Bytes} (h : scanEtagChars text = some (chars, behind)) :
    text = chars ++ dquote :: behind ∧ ∀ byte ∈ chars, isEtagChar byte = true := by
  induction text generalizing chars with
  | nil => cases h
  | cons byte rest ih =>
    rw [scanEtagChars] at h
    split_ifs at h with hquote hchar
    · cases h
      exact ⟨by rw [hquote]; rfl, fun _ hmem => absurd hmem List.not_mem_nil⟩
    · obtain ⟨⟨chars', behind'⟩, hscan, heq⟩ := Option.map_eq_some_iff.mp h
      cases heq
      obtain ⟨hrest, hvalid⟩ := ih hscan
      exact ⟨by rw [hrest]; rfl, List.forall_mem_cons.mpr ⟨hchar, hvalid⟩⟩

theorem scanEtagChars_append {chars : Bytes} (h : ∀ byte ∈ chars, isEtagChar byte = true) (behind : Bytes) :
    scanEtagChars (chars ++ dquote :: behind) = some (chars, behind) := by
  induction chars with
  | nil => rfl
  | cons byte chars ih =>
    obtain ⟨hbyte, hchars⟩ := List.forall_mem_cons.mp h
    have hquote : byte ≠ dquote := by
      rintro rfl
      exact absurd hbyte (by decide)
    rw [List.cons_append, scanEtagChars, if_neg hquote, if_pos hbyte, ih hchars]
    rfl

/-- The text of a weak tag, and of one that is not. -/
theorem EntityTag.text_cases (tag : EntityTag) :
    (tag.weak = true ∧ tag.text = 0x57 :: 0x2f :: dquote :: (tag.chars ++ [dquote])) ∨
      (tag.weak = false ∧ tag.text = dquote :: (tag.chars ++ [dquote])) := by
  unfold text quoted
  cases hweak : tag.weak with
  | true => exact .inl ⟨rfl, rfl⟩
  | false => exact .inr ⟨rfl, rfl⟩

theorem scanEntityTag_eq_some {entityTag : Bytes} (h : scanEntityTag text = some (entityTag, behind)) :
    ∃ tag : EntityTag, entityTag = tag.text ∧ text = tag.text ++ behind := by
  have hmarker : ∃ weak : Bool, (if httpIsWeakEtag text then lit "W/" else []) = (if weak then lit "W/" else []) ∧
      text = (if weak then lit "W/" else []) ++ text.drop (if weak then lit "W/" else []).length := by
    unfold httpIsWeakEtag
    split
    · exact ⟨true, rfl, rfl⟩
    · exact ⟨false, rfl, rfl⟩
  obtain ⟨weak, hif, htext⟩ := hmarker
  unfold scanEntityTag at h
  dsimp only at h
  rw [hif] at h
  generalize text.drop (if weak then lit "W/" else []).length = body at h htext
  rcases body with _ | ⟨quote, rest⟩
  · cases h
  · dsimp only at h
    by_cases hquote : quote = dquote
    · rw [if_pos hquote] at h
      obtain ⟨⟨chars, behind'⟩, hscan, heq⟩ := Option.map_eq_some_iff.mp h
      obtain ⟨rfl, rfl⟩ := Prod.mk.inj heq
      obtain ⟨hrest, hvalid⟩ := scanEtagChars_eq_some hscan
      refine ⟨⟨weak, chars, hvalid⟩, List.append_assoc _ _ _, ?_⟩
      rw [htext, hquote, hrest]
      simp [EntityTag.text, EntityTag.quoted]
    · rw [if_neg hquote] at h
      cases h

theorem scanEntityTag_append (tag : EntityTag) (behind : Bytes) :
    scanEntityTag (tag.text ++ behind) = some (tag.text, behind) := by
  have hchars : scanEtagChars (tag.chars ++ [dquote] ++ behind) = some (tag.chars, behind) := by
    rw [List.append_assoc]
    exact scanEtagChars_append tag.valid behind
  rcases tag.text_cases with ⟨-, htext⟩ | ⟨-, htext⟩
  all_goals
    rw [htext]
    show (scanEtagChars (tag.chars ++ [dquote] ++ behind)).map _ = _
    rw [hchars]
    rfl

/-- No tag has a blank, and none ends with a comma. -/
theorem EntityTag.sp_not_mem (tag : EntityTag) : sp ∉ tag.text := by
  have hchars : sp ∉ tag.chars := fun hmem => absurd (tag.valid sp hmem) (by decide)
  rcases tag.text_cases with ⟨-, htext⟩ | ⟨-, htext⟩ <;> simp [htext, hchars, sp, dquote]

theorem EntityTag.getLast?_text (tag : EntityTag) : tag.text.getLast? = some dquote := by
  unfold text quoted
  rw [List.getLast?_append, List.getLast?_append]
  rfl

/-- **No tag reaches over the end of a line** when lines are joined. -/
theorem scanEntityTag_joined (h : scanEntityTag text = none) (rest : Bytes) :
    scanEntityTag (text ++ comma :: sp :: rest) = none := by
  cases hscan : scanEntityTag (text ++ comma :: sp :: rest) with
  | none => rfl
  | some found =>
    obtain ⟨tag, -, htext⟩ := scanEntityTag_eq_some hscan
    rcases List.append_eq_append_iff.mp htext with ⟨beyond, hover, hsep⟩ | ⟨more, hmore, -⟩
    · rcases beyond with _ | ⟨first, beyond⟩
      · rw [List.append_nil] at hover
        have hfront := scanEntityTag_append tag []
        rw [List.append_nil, hover, h] at hfront
        cases hfront
      · obtain ⟨hfirst, hsep⟩ := List.cons.inj hsep
        rcases beyond with _ | ⟨second, beyond⟩
        · have hlast := tag.getLast?_text
          rw [hover, ← hfirst, List.getLast?_append] at hlast
          cases hlast
        · obtain ⟨hsecond, -⟩ := List.cons.inj hsep
          exact absurd (by rw [hover, ← hsecond]; simp) tag.sp_not_mem
    · rw [hmore, scanEntityTag_append] at h
      cases h

end

/-! ## Lists -/

section

variable {values text rest : Bytes} {tag : EntityTag}

theorem IsOws.filler (h : IsOws text) : ∀ byte ∈ text, isEtagListFiller byte = true := by
  intro byte hbyte
  unfold isEtagListFiller
  rw [h byte hbyte]
  rfl

theorem etagListStep_filler {front : Bytes} (h : ∀ byte ∈ front, isEtagListFiller byte = true) (rest : Bytes) :
    etagListStep (front ++ rest) = etagListStep rest := by
  unfold etagListStep
  rw [List.dropWhile_append_of_pos h]

theorem etagListStep_tag (tag : EntityTag) {back : Bytes} (h : IsOws back)
    (hrest : rest = [] ∨ rest.head? = some comma) :
    etagListStep (tag.text ++ (back ++ rest)) = .found tag.text rest := by
  have hdrop : (tag.text ++ (back ++ rest)).dropWhile isEtagListFiller = tag.text ++ (back ++ rest) := by
    rcases tag.text_cases with ⟨-, htext⟩ | ⟨-, htext⟩ <;> rw [htext] <;> rfl
  have hbehind : (back ++ rest).dropWhile isHttpOwsChar = rest := by
    rw [List.dropWhile_append_of_pos h]
    rcases rest with _ | ⟨first, more⟩
    · rfl
    · rcases hrest with hnil | hfirst
      · cases hnil
      · cases hfirst
        rfl
  obtain ⟨first, more, hcons⟩ : ∃ first more, tag.text ++ (back ++ rest) = first :: more := by
    rcases tag.text_cases with ⟨-, htext⟩ | ⟨-, htext⟩ <;> exact ⟨_, _, by rw [htext]; rfl⟩
  have hscan := scanEntityTag_append tag (back ++ rest)
  unfold etagListStep
  rw [hdrop, hcons]
  dsimp only
  rw [← hcons, hscan]
  dsimp only
  rw [hbehind, if_pos hrest]

theorem etagListStep_eq_atEnd (h : etagListStep values = .atEnd) : ∀ byte ∈ values, isEtagListFiller byte = true := by
  unfold etagListStep at h
  split at h
  · rename_i hdrop
    exact List.dropWhile_eq_nil_iff.mp hdrop
  · split at h
    · cases h
    · split at h <;> cases h

theorem etagListStep_eq_found {entityTag : Bytes} (h : etagListStep values = .found entityTag rest) :
    ∃ (tag : EntityTag) (front back : Bytes), entityTag = tag.text ∧ values = front ++ (tag.text ++ (back ++ rest)) ∧
      (∀ byte ∈ front, isEtagListFiller byte = true) ∧ IsOws back ∧ (rest = [] ∨ rest.head? = some comma) := by
  unfold etagListStep at h
  split at h
  · cases h
  · rename_i first more hdrop
    split at h
    · cases h
    · rename_i entityTag' behind hscan
      split at h
      · rename_i hrest
        cases h
        obtain ⟨tag, htag, htext⟩ := scanEntityTag_eq_some hscan
        refine ⟨tag, values.takeWhile isEtagListFiller, behind.takeWhile isHttpOwsChar, htag, ?_,
          fun _ => List.mem_takeWhile_imp, fun _ => List.mem_takeWhile_imp, hrest⟩
        rw [List.takeWhile_append_dropWhile, ← htext, ← hdrop, List.takeWhile_append_dropWhile]
      · cases h

theorem etagListStep_joined_malformed (h : etagListStep values = .malformed) (more : Bytes) :
    etagListStep (values ++ comma :: sp :: more) = .malformed := by
  unfold etagListStep at h ⊢
  split at h
  · cases h
  · rename_i first behind hdrop
    have hjoined : (values ++ comma :: sp :: more).dropWhile isEtagListFiller =
        first :: behind ++ comma :: sp :: more := by
      rw [List.dropWhile_append, hdrop]
      rfl
    rw [hjoined, List.cons_append]
    dsimp only
    rw [← List.cons_append]
    split at h
    · rename_i hscan
      rw [scanEntityTag_joined hscan]
    · rename_i entityTag behind' hscan
      obtain ⟨tag, -, htext⟩ := scanEntityTag_eq_some hscan
      split at h
      · cases h
      · rename_i hrest
        rw [not_or] at hrest
        rw [htext, List.append_assoc, scanEntityTag_append]
        dsimp only
        obtain ⟨next, after, hbehind⟩ := List.exists_cons_of_ne_nil hrest.1
        have hafter : (behind' ++ comma :: sp :: more).dropWhile isHttpOwsChar =
            next :: after ++ comma :: sp :: more := by
          rw [List.dropWhile_append, hbehind]
          rfl
        rw [hafter, if_neg]
        rw [hbehind] at hrest
        simpa using hrest.2

end

theorem etagListStep_length {values entityTag rest : Bytes} (h : etagListStep values = .found entityTag rest) :
    rest.length < values.length := by
  obtain ⟨tag, front, back, -, hvalues, -⟩ := etagListStep_eq_found h
  have hpos : 0 < tag.text.length := by
    rcases tag.text_cases with ⟨-, htext⟩ | ⟨-, htext⟩ <;> rw [htext] <;> exact Nat.succ_pos _
  rw [hvalues]
  simp only [List.length_append]
  omega

/-- The loop of `http_parse_etag_list_matches` from a position on. -/
def parseEtagListFrom (expected : Bytes) (strong : Bool) (values : Bytes) (matched : Bool) : HttpEtagListMatchResult :=
  match _h : etagListStep values with
  | .atEnd => ⟨true, matched⟩
  | .malformed => ⟨false, false⟩
  | .found entityTag rest =>
    parseEtagListFrom expected strong rest
      (matched || if strong then httpStrongEtagEquals entityTag expected else httpWeakEtagEquals entityTag expected)
termination_by values.length
decreasing_by exact etagListStep_length _h

/-- `http_parse_etag_list_matches`. -/
def httpParseEtagListMatches (values expected : Bytes) (strong : Bool) : HttpEtagListMatchResult :=
  parseEtagListFrom expected strong values false

/-- `http_etag_field_condition`. -/
structure HttpEtagFieldCondition where
  present : Bool := false
  valid : Bool := true
  matched : Bool := false
  wildcard : Bool := false
  deriving DecidableEq, Repr

namespace HttpEtagFieldCondition

def update (condition : HttpEtagFieldCondition) (value expected : Bytes) (strong : Bool) : HttpEtagFieldCondition :=
  if httpTrimOws value = lit "*" then
    { condition with
      present := true
      wildcard := true
      valid := if condition.present then false else condition.valid }
  else
    let result := httpParseEtagListMatches value expected strong
    { condition with
      present := true
      valid := (if condition.wildcard then false else condition.valid) && result.valid
      matched := condition.matched || result.matched }

def «matches» (condition : HttpEtagFieldCondition) : Bool :=
  condition.valid && (condition.wildcard || condition.matched)

/-- The condition of the lines of a field. -/
def ofLines (lines : List Bytes) (expected : Bytes) (strong : Bool) : HttpEtagFieldCondition :=
  lines.foldl (fun condition value => condition.update value expected strong) {}

end HttpEtagFieldCondition

structure HttpEtagPreconditions where
  ifMatch : HttpEtagFieldCondition
  ifNoneMatch : HttpEtagFieldCondition
  deriving DecidableEq, Repr

/-- `get_http_etag_preconditions`, of the lines of the two fields. -/
def getHttpEtagPreconditions (ifMatch ifNoneMatch : List Bytes) (etag : Bytes) : HttpEtagPreconditions :=
  ⟨.ofLines ifMatch etag true, .ofLines ifNoneMatch etag false⟩

/-! ## Comparisons -/

section

variable {expected : Bytes}

theorem httpIsWeakEtag_text (tag : EntityTag) : httpIsWeakEtag tag.text = tag.weak := by
  rcases tag.text_cases with ⟨hweak, htext⟩ | ⟨hweak, htext⟩ <;> rw [hweak, htext] <;> rfl

theorem httpTrimWeakEtagPrefix_text (tag : EntityTag) : httpTrimWeakEtagPrefix tag.text = tag.quoted := by
  rcases tag.text_cases with ⟨-, htext⟩ | ⟨-, htext⟩ <;> rw [htext] <;> rfl

theorem httpStrongEtagEquals_iff (tag : EntityTag) (expected : Bytes) :
    httpStrongEtagEquals tag.text expected = true ↔
      ∃ current : EntityTag, expected = current.text ∧ tag.StrongMatch current := by
  unfold httpStrongEtagEquals
  simp only [Bool.and_eq_true, Bool.not_eq_true', beq_iff_eq, httpIsWeakEtag_text]
  constructor
  · rintro ⟨⟨hweak, -⟩, rfl⟩
    exact ⟨tag, rfl, hweak, hweak, rfl⟩
  · rintro ⟨current, rfl, hweak, hweak', hchars⟩
    rw [httpIsWeakEtag_text]
    refine ⟨⟨hweak, hweak'⟩, ?_⟩
    simp [EntityTag.text, EntityTag.quoted, hweak, hweak', hchars]

theorem httpWeakEtagEquals_iff (tag : EntityTag) (expected : Bytes) :
    httpWeakEtagEquals tag.text expected = true ↔
      ∃ current : EntityTag, expected = current.text ∧ tag.WeakMatch current := by
  unfold httpWeakEtagEquals
  rw [beq_iff_eq, httpTrimWeakEtagPrefix_text]
  constructor
  · intro hequal
    unfold httpTrimWeakEtagPrefix at hequal
    split at hequal
    · subst hequal
      exact ⟨⟨true, tag.chars, tag.valid⟩, rfl, rfl⟩
    · subst hequal
      exact ⟨⟨false, tag.chars, tag.valid⟩, rfl, rfl⟩
  · rintro ⟨current, rfl, hchars⟩
    rw [httpTrimWeakEtagPrefix_text, EntityTag.quoted, EntityTag.quoted, hchars]

end

/-! ## The loop -/

section

variable {expected : Bytes} {strong : Bool} {values : Bytes} {tags : List EntityTag}

/-- What a member of a list adds to the match. -/
def memberMatches (expected : Bytes) (strong : Bool) (tag : EntityTag) : Bool :=
  if strong then httpStrongEtagEquals tag.text expected else httpWeakEtagEquals tag.text expected

theorem parseEtagListFrom_atEnd (h : etagListStep values = .atEnd) (matched : Bool) :
    parseEtagListFrom expected strong values matched = ⟨true, matched⟩ := by
  rw [parseEtagListFrom]
  split <;> rename_i hstep
  · rfl
  · cases h.symm.trans hstep
  · cases h.symm.trans hstep

theorem parseEtagListFrom_malformed (h : etagListStep values = .malformed) (matched : Bool) :
    parseEtagListFrom expected strong values matched = ⟨false, false⟩ := by
  rw [parseEtagListFrom]
  split <;> rename_i hstep
  · cases h.symm.trans hstep
  · rfl
  · cases h.symm.trans hstep

theorem parseEtagListFrom_found {tag : EntityTag} {rest : Bytes} (h : etagListStep values = .found tag.text rest)
    (matched : Bool) : parseEtagListFrom expected strong values matched =
      parseEtagListFrom expected strong rest (matched || memberMatches expected strong tag) := by
  rw [parseEtagListFrom]
  split <;> rename_i hstep
  · cases h.symm.trans hstep
  · cases h.symm.trans hstep
  · cases h.symm.trans hstep
    rfl

theorem parseEtagListFrom_congr {values' : Bytes} (h : etagListStep values = etagListStep values') (matched : Bool) :
    parseEtagListFrom expected strong values matched = parseEtagListFrom expected strong values' matched := by
  cases hstep : etagListStep values' with
  | atEnd => rw [parseEtagListFrom_atEnd hstep, parseEtagListFrom_atEnd (h.trans hstep)]
  | malformed => rw [parseEtagListFrom_malformed hstep, parseEtagListFrom_malformed (h.trans hstep)]
  | found entityTag rest =>
    obtain ⟨tag, -, -, rfl, -⟩ := etagListStep_eq_found hstep
    rw [parseEtagListFrom_found hstep, parseEtagListFrom_found (h.trans hstep)]

theorem parseEtagListFrom_filler {front : Bytes} (h : ∀ byte ∈ front, isEtagListFiller byte = true) (rest : Bytes)
    (matched : Bool) :
    parseEtagListFrom expected strong (front ++ rest) matched = parseEtagListFrom expected strong rest matched :=
  parseEtagListFrom_congr (etagListStep_filler h rest) matched

/-- **The lines of a field are those of a list**: what is joined is read line by line. -/
theorem parseEtagListFrom_joined (values more : Bytes) (matched : Bool) :
    parseEtagListFrom expected strong (values ++ comma :: sp :: more) matched =
      if (parseEtagListFrom expected strong values matched).valid then
        parseEtagListFrom expected strong more (parseEtagListFrom expected strong values matched).matched
      else ⟨false, false⟩ := by
  fun_induction parseEtagListFrom expected strong values matched with
  | case1 values matched hstep =>
    have hseparator : ∀ byte ∈ [comma, sp], isEtagListFiller byte = true := List.all_eq_true.mp (by decide)
    rw [if_pos rfl, parseEtagListFrom_filler (etagListStep_eq_atEnd hstep)]
    exact parseEtagListFrom_filler hseparator more matched
  | case2 values matched hstep =>
    rw [parseEtagListFrom_malformed (etagListStep_joined_malformed hstep more), if_neg (by decide)]
  | case3 values matched entityTag rest hstep ih =>
    obtain ⟨tag, front, back, rfl, rfl, hfront, hback, hrest⟩ := etagListStep_eq_found hstep
    have hjoined : etagListStep (front ++ (tag.text ++ (back ++ rest)) ++ comma :: sp :: more) =
        .found tag.text (rest ++ comma :: sp :: more) := by
      have hhead : (rest ++ comma :: sp :: more).head? = some comma := by
        rcases hrest with rfl | hrest
        · rfl
        · obtain ⟨after, rfl⟩ := List.head?_eq_some_iff.mp hrest
          rfl
      rw [← etagListStep_tag tag hback (.inr hhead), List.append_assoc, etagListStep_filler hfront]
      simp only [List.append_assoc]
    rw [parseEtagListFrom_found hjoined]
    exact ih

/-! ## The grammar of lists -/

theorem IsListMember.step {text : Bytes} {tag : Option EntityTag} (h : IsListMember text tag) (matched : Bool)
    {rest : Bytes} (hrest : rest = [] ∨ rest.head? = some comma) :
    parseEtagListFrom expected strong (text ++ rest) matched =
      parseEtagListFrom expected strong rest (matched || tag.any (memberMatches expected strong)) := by
  obtain ⟨front, back, hfront, hback, rfl⟩ := h
  cases tag with
  | none =>
    rw [Option.elim_none, List.append_nil, List.append_assoc, parseEtagListFrom_filler hfront.filler,
      parseEtagListFrom_filler hback.filler, Option.any_none, Bool.or_false]
  | some tag =>
    rw [Option.elim_some, List.append_assoc, List.append_assoc, parseEtagListFrom_filler hfront.filler,
      parseEtagListFrom_found (etagListStep_tag tag hback hrest), Option.any_some]

/-- A list is read to its end. -/
theorem EntityTagList.parse (h : EntityTagList values tags) (matched : Bool) :
    parseEtagListFrom expected strong values matched = ⟨true, matched || tags.any (memberMatches expected strong)⟩ := by
  have hnil : ∀ matched, parseEtagListFrom expected strong [] matched = ⟨true, matched⟩ := parseEtagListFrom_atEnd rfl
  induction h generalizing matched with
  | @last text tag hmember =>
    rw [← List.append_nil text, hmember.step matched (.inl rfl), hnil]
    cases tag <;> simp
  | @more text tag rest tags hmember _ ih =>
    have hcomma : ∀ matched, parseEtagListFrom expected strong (comma :: rest) matched =
        parseEtagListFrom expected strong rest matched :=
      @parseEtagListFrom_filler _ _ [comma] (List.forall_mem_singleton.mpr rfl) rest
    rw [hmember.step matched (.inr rfl), hcomma, ih]
    cases tag <;> simp [Bool.or_assoc]

theorem isOws_nil : IsOws [] := fun _ hmem => absurd hmem List.not_mem_nil

theorem isListMember_of_ows {text : Bytes} (h : IsOws text) : IsListMember text none :=
  ⟨text, [], h, isOws_nil, by simp⟩

theorem EntityTagList.ows {front : Bytes} (hfront : IsOws front) (h : EntityTagList values tags) :
    EntityTagList (front ++ values) tags := by
  have hmember : ∀ {text tag}, IsListMember text tag → IsListMember (front ++ text) tag := by
    rintro text tag ⟨before, back, hbefore, hback, rfl⟩
    refine ⟨front ++ before, back, ?_, hback, by simp⟩
    intro byte hbyte
    rcases List.mem_append.mp hbyte with hbyte | hbyte
    · exact hfront byte hbyte
    · exact hbefore byte hbyte
  cases h with
  | last htext => exact .last (hmember htext)
  | more htext hrest =>
    rw [← List.append_assoc]
    exact .more (hmember htext) hrest

theorem EntityTagList.filler {front : Bytes} (hfront : ∀ byte ∈ front, isEtagListFiller byte = true)
    (h : EntityTagList values tags) : EntityTagList (front ++ values) tags := by
  induction front with
  | nil => exact h
  | cons byte front ih =>
    have hlist := ih (List.forall_mem_cons.mp hfront).2
    have hbyte := hfront byte List.mem_cons_self
    by_cases hows : isHttpOwsChar byte = true
    · have hfront : IsOws [byte] := List.forall_mem_singleton.mpr hows
      have hbehind : EntityTagList ([byte] ++ (front ++ values)) tags := hlist.ows hfront
      exact hbehind
    · obtain rfl : byte = comma := by simpa [isEtagListFiller, hows] using hbyte
      exact .more (isListMember_of_ows isOws_nil) hlist

theorem IsListMember.eq_none {tag : Option EntityTag} (h : IsListMember [] tag) : tag = none := by
  obtain ⟨front, back, -, -, heq⟩ := h
  cases tag with
  | none => rfl
  | some tag => rcases tag.text_cases with ⟨-, htext⟩ | ⟨-, htext⟩ <;> simp [htext] at heq

theorem IsListMember.head {text : Bytes} {tag : Option EntityTag} (h : IsListMember text tag) :
    text.head? ≠ some comma := by
  have hows : ∀ {text : Bytes}, IsOws text → text.head? ≠ some comma := by
    intro text htext hhead
    obtain ⟨rest, rfl⟩ := List.head?_eq_some_iff.mp hhead
    exact absurd (htext comma List.mem_cons_self) (by decide)
  obtain ⟨front, back, hfront, hback, rfl⟩ := h
  rcases front with _ | ⟨byte, front⟩
  · cases tag with
    | none => exact hows hback
    | some tag =>
      rw [Option.elim_some]
      rcases tag.text_cases with ⟨-, htext⟩ | ⟨-, htext⟩ <;> rw [htext] <;> exact nofun
  · exact fun hhead => hows hfront hhead

/-- A comma in front of a list ends an empty member. -/
theorem EntityTagList.tail {rest : Bytes} (h : EntityTagList (comma :: rest) tags) : EntityTagList rest tags := by
  generalize hvalues : comma :: rest = values at h
  cases h with
  | last hmember =>
    subst hvalues
    exact absurd rfl hmember.head
  | @more text tag rest' tags hmember hrest =>
    rcases text with _ | ⟨byte, text⟩
    · obtain rfl := hmember.eq_none
      cases hvalues
      exact hrest
    · cases hvalues
      exact absurd rfl hmember.head

theorem EntityTagList.eq_nil (h : EntityTagList [] tags) : tags = [] := by
  generalize hvalues : ([] : Bytes) = values at h
  cases h with
  | last hmember =>
    subst hvalues
    rw [hmember.eq_none]
    rfl
  | more => simp at hvalues

/-- What is left behind a tag is behind the comma of a list. -/
theorem EntityTagList.tag (tag : EntityTag) {back rest : Bytes} (hback : IsOws back) (h : EntityTagList rest tags)
    (hrest : rest = [] ∨ rest.head? = some comma) : EntityTagList (tag.text ++ (back ++ rest)) (tag :: tags) := by
  have hmember : IsListMember (tag.text ++ back) (some tag) := ⟨[], back, isOws_nil, hback, rfl⟩
  rcases hrest with rfl | hrest
  · obtain rfl := h.eq_nil
    rw [List.append_nil]
    exact .last hmember
  · obtain ⟨after, rfl⟩ := List.head?_eq_some_iff.mp hrest
    rw [← List.append_assoc]
    exact .more hmember h.tail

/-- **What is accepted is a list.** -/
theorem entityTagList_of_parse {matched : Bool} (h : (parseEtagListFrom expected strong values matched).valid = true) :
    ∃ tags, EntityTagList values tags := by
  fun_induction parseEtagListFrom expected strong values matched with
  | case1 values matched hstep =>
    have hlist := EntityTagList.filler (etagListStep_eq_atEnd hstep)
      (.last (isListMember_of_ows isOws_nil))
    rw [List.append_nil] at hlist
    exact ⟨_, hlist⟩
  | case2 => cases h
  | case3 values matched entityTag rest hstep ih =>
    obtain ⟨tag, front, back, rfl, rfl, hfront, hback, hrest⟩ := etagListStep_eq_found hstep
    obtain ⟨tags, htags⟩ := ih h
    exact ⟨tag :: tags, (htags.tag tag hback hrest).filler hfront⟩

end

/-! ## Results -/

section

variable {expected : Bytes} {strong : Bool}

open HttpEtagFieldCondition

/-- The value of the lines of a field. -/
def joinedLines (lines : List Bytes) : Bytes := [comma, sp].intercalate lines

variable {value : Bytes}

theorem exists_of_wildcard (h : httpTrimOws value = lit "*") :
    ∃ front back, IsOws front ∧ IsOws back ∧ value = front ++ 0x2a :: back := by
  refine ⟨value.takeWhile isHttpOwsChar, (value.dropWhile isHttpOwsChar).rtakeWhile isHttpOwsChar,
    fun _ => List.mem_takeWhile_imp, fun _ => List.mem_rtakeWhile_imp, ?_⟩
  calc value = value.takeWhile isHttpOwsChar ++ value.dropWhile isHttpOwsChar := List.takeWhile_append_dropWhile.symm
    _ = value.takeWhile isHttpOwsChar ++
        (httpTrimOws value ++ (value.dropWhile isHttpOwsChar).rtakeWhile isHttpOwsChar) := by
      unfold httpTrimOws
      rw [List.rdropWhile_append_rtakeWhile]
    _ = _ := by
      rw [h]
      rfl

theorem parse_wildcard (h : httpTrimOws value = lit "*") (matched : Bool) :
    parseEtagListFrom expected strong value matched = ⟨false, false⟩ := by
  obtain ⟨front, back, hfront, -, rfl⟩ := exists_of_wildcard h
  rw [parseEtagListFrom_filler hfront.filler]
  exact parseEtagListFrom_malformed rfl matched

theorem not_wildcard_of_comma {more : Bytes} : httpTrimOws (value ++ comma :: more) ≠ lit "*" := by
  intro h
  obtain ⟨front, back, hfront, hback, heq⟩ := exists_of_wildcard h
  have hmem : comma ∈ front ++ 0x2a :: back := by
    rw [← heq]
    simp
  simp only [List.mem_append, List.mem_cons] at hmem
  rcases hmem with hmem | hmem | hmem
  · exact absurd (hfront comma hmem) (by decide)
  · cases hmem
  · exact absurd (hback comma hmem) (by decide)

theorem parse_valid_iff (value : Bytes) (matched : Bool) :
    (parseEtagListFrom expected strong value matched).valid = true ↔ ∃ tags, EntityTagList value tags := by
  constructor
  · exact entityTagList_of_parse
  · rintro ⟨tags, htags⟩
    rw [htags.parse]

/-- A match so far changes nothing but the match. -/
theorem parse_matched (value : Bytes) (matched : Bool) :
    (parseEtagListFrom expected strong value matched).valid = (httpParseEtagListMatches value expected strong).valid ∧
      ((parseEtagListFrom expected strong value matched).valid = true →
        (parseEtagListFrom expected strong value matched).matched =
          (matched || (httpParseEtagListMatches value expected strong).matched)) := by
  unfold httpParseEtagListMatches
  constructor
  · rw [Bool.eq_iff_iff, parse_valid_iff, parse_valid_iff]
  · rw [parse_valid_iff]
    rintro ⟨tags, htags⟩
    rw [htags.parse, htags.parse, Bool.false_or]

variable {condition : HttpEtagFieldCondition}

theorem update_of_not_wildcard (h : httpTrimOws value ≠ lit "*") (hcondition : condition.wildcard = false) :
    condition.update value expected strong =
      ⟨true, condition.valid && (httpParseEtagListMatches value expected strong).valid,
        condition.matched || (httpParseEtagListMatches value expected strong).matched, false⟩ := by
  unfold update
  rw [if_neg h, hcondition, if_neg (by decide)]

theorem foldl_invalid (h : condition.valid = false) (lines : List Bytes) :
    (lines.foldl (fun condition value => condition.update value expected strong) condition).valid = false := by
  induction lines generalizing condition with
  | nil => exact h
  | cons line lines ih =>
    apply ih
    show (condition.update line expected strong).valid = false
    unfold update
    split <;> simp [h]

theorem joinedLines_singleton (line : Bytes) : joinedLines [line] = line := by simp [joinedLines]

theorem joinedLines_cons (line next : Bytes) (lines : List Bytes) :
    joinedLines (line :: next :: lines) = line ++ comma :: sp :: joinedLines (next :: lines) := by simp [joinedLines]

/-- What the condition of some lines has to do with the list that they join to. -/
structure Agrees (folded : HttpEtagFieldCondition) (valid : Bool) (joined : HttpEtagListMatchResult) : Prop where
  valid : folded.valid = (valid && joined.valid)
  result : folded.valid = true → folded.wildcard = false ∧ folded.matched = joined.matched

theorem Agrees.of_invalid {folded : HttpEtagFieldCondition} (h : folded.valid = false) (valid : Bool)
    {joined : HttpEtagListMatchResult} (hjoined : joined.valid = false) : Agrees folded valid joined := by
  refine ⟨by rw [h, hjoined, Bool.and_false], fun hvalid => ?_⟩
  rw [h] at hvalid
  cases hvalid

/-- The lines from one with a wildcard on, behind another line. -/
theorem foldl_wildcard (hpresent : condition.present = true) {line : Bytes} (hline : httpTrimOws line = lit "*")
    (lines : List Bytes) :
    Agrees ((line :: lines).foldl (fun condition value => condition.update value expected strong) condition)
      condition.valid (parseEtagListFrom expected strong (joinedLines (line :: lines)) condition.matched) := by
  apply Agrees.of_invalid
  · have hupdate : (condition.update line expected strong).valid = false := by
      unfold update
      rw [if_pos hline, hpresent, if_pos rfl]
    exact foldl_invalid hupdate lines
  · rcases lines with _ | ⟨next, lines⟩
    · rw [joinedLines_singleton, parse_wildcard hline]
    · rw [joinedLines_cons, parseEtagListFrom_joined, parse_wildcard hline]
      rfl

/-- **The lines behind the first one**, where that one was a list. -/
theorem foldl_joined {condition : HttpEtagFieldCondition} (hpresent : condition.present = true)
    (hwildcard : condition.wildcard = false) (line : Bytes) (lines : List Bytes) :
    Agrees ((line :: lines).foldl (fun condition value => condition.update value expected strong) condition)
      condition.valid (parseEtagListFrom expected strong (joinedLines (line :: lines)) condition.matched) := by
  induction lines generalizing condition line with
  | nil =>
    by_cases hline : httpTrimOws line = lit "*"
    · exact foldl_wildcard hpresent hline []
    obtain ⟨hvalid, hmatched⟩ := @parse_matched expected strong line condition.matched
    rw [joinedLines_singleton, List.foldl_cons, List.foldl_nil, update_of_not_wildcard hline hwildcard, ← hvalid]
    exact ⟨rfl, fun h => ⟨rfl, (hmatched (Bool.and_eq_true_iff.mp h).2).symm⟩⟩
  | cons next lines ih =>
    by_cases hline : httpTrimOws line = lit "*"
    · exact foldl_wildcard hpresent hline (next :: lines)
    obtain ⟨hvalid, hmatched⟩ := @parse_matched expected strong line condition.matched
    rw [joinedLines_cons, parseEtagListFrom_joined, List.foldl_cons, update_of_not_wildcard hline hwildcard, ← hvalid]
    cases hfirst : (parseEtagListFrom expected strong line condition.matched).valid with
    | false =>
      rw [if_neg (by decide), Bool.and_false]
      exact Agrees.of_invalid (foldl_invalid rfl _) _ rfl
    | true =>
      rw [if_pos rfl, Bool.and_true, hmatched hfirst]
      exact ih rfl rfl next

/-- Every line behind one with a wildcard is invalid. -/
theorem update_behind_wildcard (hpresent : condition.present = true) (hwildcard : condition.wildcard = true)
    (line : Bytes) : (condition.update line expected strong).valid = false := by
  unfold update
  by_cases hline : httpTrimOws line = lit "*"
  · rw [if_pos hline, hpresent]
    rfl
  · rw [if_neg hline, hwildcard]
    rfl

theorem ofLines_singleton (h : httpTrimOws value ≠ lit "*") :
    ofLines [value] expected strong = ⟨true, (httpParseEtagListMatches value expected strong).valid,
      (httpParseEtagListMatches value expected strong).matched, false⟩ :=
  update_of_not_wildcard h rfl

theorem ofLines_wildcard (h : httpTrimOws value = lit "*") :
    ofLines [value] expected strong = ⟨true, true, false, true⟩ := by
  show update {} value expected strong = _
  unfold update
  rw [if_pos h]
  rfl

/-- **What lines say is what their joined value says.** -/
theorem ofLines_joined (lines : List Bytes) :
    (ofLines lines expected strong).valid = (ofLines [joinedLines lines] expected strong).valid ∧
      ((ofLines lines expected strong).valid = true →
        (ofLines lines expected strong).wildcard = (ofLines [joinedLines lines] expected strong).wildcard ∧
        (ofLines lines expected strong).matched = (ofLines [joinedLines lines] expected strong).matched) := by
  rcases lines with _ | ⟨line, _ | ⟨next, lines⟩⟩
  · have hempty : httpParseEtagListMatches [] expected strong = ⟨true, false⟩ := parseEtagListFrom_atEnd rfl false
    rw [show joinedLines [] = [] from rfl, ofLines_singleton (by decide), hempty]
    exact ⟨rfl, fun _ => ⟨rfl, rfl⟩⟩
  · rw [joinedLines_singleton]
    exact ⟨rfl, fun _ => ⟨rfl, rfl⟩⟩
  · have hnot : httpTrimOws (joinedLines (line :: next :: lines)) ≠ lit "*" := by
      exact not_wildcard_of_comma
    suffices hagrees : Agrees (ofLines (line :: next :: lines) expected strong) true
        (httpParseEtagListMatches (joinedLines (line :: next :: lines)) expected strong) by
      rw [ofLines_singleton hnot]
      exact ⟨by rw [hagrees.valid, Bool.true_and], hagrees.result⟩
    unfold httpParseEtagListMatches
    rw [joinedLines_cons, parseEtagListFrom_joined]
    by_cases hline : httpTrimOws line = lit "*"
    · apply Agrees.of_invalid
      · have hfirst : update {} line expected strong = ⟨true, true, false, true⟩ := ofLines_wildcard hline
        unfold ofLines
        rw [List.foldl_cons, hfirst, List.foldl_cons]
        exact foldl_invalid (update_behind_wildcard rfl rfl next) lines
      · rw [parse_wildcard hline]
        rfl
    · have hfirst : update {} line expected strong = _ := ofLines_singleton hline
      unfold ofLines
      rw [List.foldl_cons, hfirst]
      have hrest := @foldl_joined expected strong ⟨true, (httpParseEtagListMatches line expected strong).valid,
        (httpParseEtagListMatches line expected strong).matched, false⟩ rfl rfl next lines
      unfold httpParseEtagListMatches at hrest ⊢
      cases hvalid : (parseEtagListFrom expected strong line false).valid with
      | false =>
        rw [hvalid] at hrest
        rw [if_neg (by decide)]
        exact Agrees.of_invalid hrest.valid true rfl
      | true =>
        rw [hvalid] at hrest
        rw [if_pos rfl]
        exact hrest

/-- **Entity-tag preconditions.** The lines of If-Match and of If-None-Match are valid as their joined value is, and
    then have its wildcard and its match. A value is valid if it is a wildcard alone or a list of entity-tags, and a
    list matches if one of its members matches the current tag, by the strong comparison for If-Match and by the weak
    one for If-None-Match. -/
theorem etag_preconditions (expected : Bytes) (strong : Bool) :
    (∀ lines, (ofLines lines expected strong).valid = (ofLines [joinedLines lines] expected strong).valid ∧
      ((ofLines lines expected strong).valid = true →
        (ofLines lines expected strong).wildcard = (ofLines [joinedLines lines] expected strong).wildcard ∧
        (ofLines lines expected strong).matched = (ofLines [joinedLines lines] expected strong).matched) ∧
      (ofLines lines expected strong).matches = (ofLines [joinedLines lines] expected strong).matches) ∧
      ∀ value, ((ofLines [value] expected strong).valid = true ↔
          httpTrimOws value = lit "*" ∨ ∃ tags, EntityTagList value tags) ∧
        ((ofLines [value] expected strong).wildcard = true ↔ httpTrimOws value = lit "*") ∧
        ∀ tags, EntityTagList value tags → ((ofLines [value] expected strong).matched = true ↔
          ∃ tag ∈ tags, ∃ current : EntityTag, expected = current.text ∧ tag.Match strong current) := by
  refine ⟨fun lines => ?_, fun value => ?_⟩
  · obtain ⟨hvalid, hresult⟩ := @ofLines_joined expected strong lines
    refine ⟨hvalid, hresult, ?_⟩
    unfold HttpEtagFieldCondition.matches
    rw [← hvalid]
    cases h : (ofLines lines expected strong).valid with
    | false => rfl
    | true => rw [(hresult h).1, (hresult h).2]
  by_cases hvalue : httpTrimOws value = lit "*"
  · rw [ofLines_wildcard hvalue]
    refine ⟨⟨fun _ => .inl hvalue, fun _ => rfl⟩, ⟨fun _ => hvalue, fun _ => rfl⟩, fun tags htags => ?_⟩
    have hparse := @EntityTagList.parse expected strong _ _ htags false
    rw [parse_wildcard hvalue] at hparse
    cases hparse
  · rw [ofLines_singleton hvalue]
    unfold httpParseEtagListMatches
    refine ⟨?_, iff_of_false Bool.false_ne_true hvalue, fun tags htags => ?_⟩
    · rw [parse_valid_iff, or_iff_right hvalue]
    · have hmember : ∀ tag : EntityTag, memberMatches expected strong tag = true ↔
          ∃ current : EntityTag, expected = current.text ∧ tag.Match strong current := by
        intro tag
        unfold memberMatches EntityTag.Match
        cases strong with
        | true => exact httpStrongEtagEquals_iff tag expected
        | false => exact httpWeakEtagEquals_iff tag expected
      rw [htags.parse, Bool.false_or, List.any_eq_true]
      simp only [hmember]

/-- Two lines, with a comma inside a tag and an empty member; the tag of the second line is current. -/
theorem etag_preconditions_lines :
    (getHttpEtagPreconditions [lit "\"a,\"", lit ", W/\"b\""] [] (lit "\"b\"")).ifMatch.matches = false ∧
      (ofLines [lit ", W/\"b\""] (lit "\"b\"") false).matched = true := by
  let tag (weak : Bool) : EntityTag := ⟨weak, [0x62], List.forall_mem_singleton.mpr (by decide)⟩
  have hempty : IsListMember [] none := isListMember_of_ows isOws_nil
  have htag : IsListMember (lit " W/\"b\"") (some (tag true)) :=
    ⟨[sp], [], List.forall_mem_singleton.mpr (by decide), isOws_nil, by decide⟩
  have hlist : EntityTagList (lit ", W/\"b\"") [tag true] := .more hempty (.last htag)
  have hlines := ((etag_preconditions (lit "\"b\"") true).1 [lit "\"a,\"", lit ", W/\"b\""]).2.2
  refine ⟨hlines.trans (by decide +kernel), ?_⟩
  exact (((etag_preconditions (lit "\"b\"") false).2 _).2.2 _ hlist).mpr
    ⟨tag true, List.mem_singleton_self _, tag false, by decide, rfl⟩

end

end Ruvia.Http
