import Ruvia.Http.ChunkedDelivery
import Ruvia.Http.TrailerFields

/-!
# `Http.RequestTrailers` — the retained request trailers

`http_request_trailers.cpp`: fields are appended all or none, from views or from a received HTTP/1 block. The block is
checked while its fields are retained in place, and rolled back on failure. Every block the chunked decoder publishes
without obs-fold is read as the fields the decoder went over (`appendHttp1_published`), less those a sender was not
permitted to generate.
-/

namespace Ruvia.Http

open Library

/-! ## The retained section -/

/-- `http_request_trailers`. -/
structure HttpRequestTrailers where
  fields : List HttpHeaderView := []
  budget : HttpFieldSectionBudget := httpTrailerSectionBudget
  deriving DecidableEq, Repr

/-- What an append comes to; `threw` when an allocation failed. -/
inductive TrailerAppend where
  | appended
  | rejected (error : HttpRequestTrailerError)
  | threw
  deriving DecidableEq, Repr

/-- Which of the allocating steps of one call succeed. -/
abbrev Allocations := Nat → Bool

def Allocations.plenty : Allocations := fun _ => true

/-- `http_header::copy_with_lowercase_name`. -/
def copyWithLowercaseName (field : HttpHeaderView) : HttpHeaderView :=
  ⟨field.name.map httpAsciiToLower, field.value⟩

/-- The staging loop, from allocating step `steps` on. -/
def stageFields (allocates : Allocations) : Nat → List HttpHeaderView → Option (List HttpHeaderView)
  | _, [] => some []
  | steps, field :: fields =>
    if allocates steps = false then none
    else (stageFields allocates (steps + 1) fields).map (copyWithLowercaseName field :: ·)

/-- What the visitor of a received block works on. -/
structure TrailerRetention where
  fields : List HttpHeaderView
  steps : Nat := 0
  threw : Bool := false

/-- The visitor of `append_http1`; an allocation failure leaves the visit at once. -/
def TrailerRetention.retain (allocates : Allocations) (retention : TrailerRetention) (name value : Bytes) :
    TrailerRetention × Bool :=
  if allocates retention.steps = false then ({ retention with threw := true }, false)
  else
    ({ retention with
        fields := retention.fields ++ [copyWithLowercaseName ⟨name, value⟩], steps := retention.steps + 1 }, true)

def endsWith (text ending : Bytes) : Bool := ending.isSuffixOf text

/-- The block without the line ends a caller may have left behind its last field. -/
def withoutTerminator (block : Bytes) : Option Bytes :=
  if endsWith block [cr, lf, cr, lf] then
    let text := block.take (block.length - 4)
    if text = [] ∨ endsWith text [cr, lf] then none else some text
  else if endsWith block [cr, lf] then
    let text := block.take (block.length - 2)
    if text = [] ∨ endsWith text [cr, lf] then none else some text
  else some block

namespace HttpRequestTrailers

variable (trailers : HttpRequestTrailers) (allocates : Allocations)

/-- `append`: charged on a copy of the budget, staged, then moved in. -/
def append (fields : List HttpHeaderView) : HttpRequestTrailers × TrailerAppend :=
  match chargeHttpRequestTrailerFields trailers.budget fields with
  | .error error => (trailers, .rejected error)
  | .ok charged =>
    if fields = [] then (trailers, .appended)
    else if allocates 0 = false then (trailers, .threw)
    else
      match stageFields allocates 1 fields with
      | none => (trailers, .threw)
      | some staged =>
        if allocates (1 + fields.length) = false then (trailers, .threw)
        else (⟨trailers.fields ++ staged, charged⟩, .appended)

/-- `roll_back`: what the visit retained behind the first `field_count` fields is erased. -/
def rollBack (retained : List HttpHeaderView) : HttpRequestTrailers :=
  { trailers with fields := retained.take trailers.fields.length }

def appendHttp1 (block : Bytes) : HttpRequestTrailers × TrailerAppend :=
  if maxHttpHeaderBytes < block.length then (trailers, .rejected .sectionTooLarge)
  else
    match withoutTerminator block with
    | none => (trailers, .rejected .invalidField)
    | some text =>
      let (status, budget, visited) :=
        visitHttp1TrailerBlock text .reject isForbiddenHttpRequestTrailerName trailers.budget
          (TrailerRetention.retain allocates) { fields := trailers.fields }
      if visited.threw then (trailers.rollBack visited.fields, .threw)
      else
        match status with
        | .ok => (⟨visited.fields, budget⟩, .appended)
        | .sectionTooLarge => (trailers.rollBack visited.fields, .rejected .sectionTooLarge)
        | .invalidField | .visitorStopped => (trailers.rollBack visited.fields, .rejected .invalidField)

end HttpRequestTrailers

/-! ## One field of a visit -/

/-- The field whose line begins at `cursor`: its name, its value and where the next line begins. -/
def trailerFieldAt (block : Bytes) (obsFold : Http1TrailerObsFold) (cursor : Nat) : Option (Bytes × TrailerField) :=
  let lineEnd := findCrlf block cursor
  let line : Span := ⟨cursor, lineEnd.getD block.length⟩
  let text := line.bytes block
  let colonAt := httpTokenPrefixSize text
  if colonAt = 0 ∨ text[colonAt]? ≠ some colon then none
  else
    let piece : Span := (Span.mk (cursor + colonAt + 1) line.stop).trimOws block
    (visitFieldPieces block obsFold (block.length + 1) lineEnd piece piece 0 0).map fun field =>
      (text.take colonAt, field)

section

variable {σ τ : Type} {block : Bytes} {obsFold : Http1TrailerObsFold} {discardedName : Bytes → Bool}
  {visitor : σ → Bytes → Bytes → σ × Bool} {fuel cursor : Nat} {budget : HttpFieldSectionBudget} {s : σ}

/-- What a visit makes of one field: discarded, or shown to the visitor. -/
def visitField (discardedName : Bytes → Bool) (visitor : σ → Bytes → Bytes → σ × Bool) (s : σ) (name value : Bytes) :
    σ × Bool :=
  if discardedName name then (s, true) else visitor s name value

/-- The field loop, one field at a time. -/
theorem visitTrailerFields_succ :
    visitTrailerFields block obsFold discardedName visitor (fuel + 1) cursor budget s =
      if block.length ≤ cursor then (.ok, budget, s)
      else
        match trailerFieldAt block obsFold cursor with
        | none => (.invalidField, budget, s)
        | some (name, field) =>
          match budget.addField name.length field.valueBytes with
          | none => (.sectionTooLarge, budget, s)
          | some charged =>
            let (s', keep) := visitField discardedName visitor s name (field.value.bytes block)
            if keep = false then (.visitorStopped, charged, s')
            else
              match field.lineEnd with
              | none => (.ok, charged, s')
              | some stop => visitTrailerFields block obsFold discardedName visitor fuel (stop + 2) charged s' := by
  rw [visitTrailerFields]
  by_cases hend : block.length ≤ cursor
  · rw [if_pos hend, if_pos hend]
  · rw [if_neg hend, if_neg hend]
    simp only [trailerFieldAt]
    split
    · rfl
    · split <;> rename_i hpieces <;> rw [hpieces] <;> rfl

/-- **What holds of the visitor's state and is kept by the visitor holds behind a visit.** -/
theorem visitTrailerFields_keeps {P : σ → Prop}
    (hvisit : ∀ s name value, P s → P (visitor s name value).1) (h : P s) :
    P (visitTrailerFields block obsFold discardedName visitor fuel cursor budget s).2.2 := by
  induction fuel generalizing cursor budget s with
  | zero => exact h
  | succ fuel ih =>
    rw [visitTrailerFields_succ]
    have hfield : ∀ name value, P (visitField discardedName visitor s name value).1 := by
      intro name value
      rw [visitField]
      split
      · exact h
      · exact hvisit s name value h
    split
    · exact h
    · split
      · exact h
      · rename_i name field _
        split
        · exact h
        · have hkept := hfield name (field.value.bytes block)
          generalize visitField discardedName visitor s name (field.value.bytes block) = shown at hkept ⊢
          dsimp only at hkept ⊢
          split
          · exact hkept
          · split
            · exact hkept
            · exact ih hkept

end

/-! ## The fields of an accepted block -/

/-- A trimmed view lies inside its block. -/
theorem Span.length_bytes_trimOws (span : Span) (block : Bytes) :
    ((span.trimOws block).bytes block).length = (span.trimOws block).size := by
  have hview : (span.bytes block).length ≤ block.length - span.start := by
    rw [Span.bytes, sub, List.length_take, List.length_drop]
    exact Nat.min_le_right _ _
  have htrim : ((span.bytes block).takeWhile isHttpOwsChar).length + (httpTrimOws (span.bytes block)).length ≤
      (span.bytes block).length := by
    have hsplit := congrArg List.length (@List.takeWhile_append_dropWhile _ isHttpOwsChar (span.bytes block))
    have hback := (List.rdropWhile_prefix isHttpOwsChar ((span.bytes block).dropWhile isHttpOwsChar)).length_le
    rw [List.length_append] at hsplit
    rw [httpTrimOws]
    omega
  simp only [Span.bytes, Span.size, Span.trimOws, sub, List.length_take, List.length_drop] at hview htrim ⊢
  omega

variable {block : Bytes} {cursor : Nat}

/-- Without obs-fold a field is charged the bytes of its value. -/
theorem trailerFieldAt_valueBytes {name : Bytes} {field : TrailerField}
    (h : trailerFieldAt block .reject cursor = some (name, field)) :
    field.valueBytes = (field.value.bytes block).length := by
  simp only [trailerFieldAt] at h
  split at h
  · cases h
  · obtain ⟨found, hfound, hpair⟩ := Option.map_eq_some_iff.mp h
    obtain ⟨-, rfl⟩ := Prod.mk.inj hpair
    generalize hpiece : Span.trimOws _ block = piece at hfound
    by_cases hvalid : isValidHttpFieldValueBytes (piece.bytes block) = true
    · rw [visitFieldPieces_reject hvalid] at hfound
      cases hfound
      rw [← hpiece, Span.length_bytes_trimOws]
    · rw [visitFieldPieces, if_pos (Bool.not_eq_true _ ▸ hvalid)] at hfound
      cases hfound

/-- What a visit that keeps every field makes of the fields it reads, as far as the budget goes. -/
def VisitsFields {σ : Type} (visited : HttpTrailerBlockStatus × HttpFieldSectionBudget × σ)
    (discardedName : Bytes → Bool) (next : σ → HttpHeaderView → σ) (budget : HttpFieldSectionBudget) (s : σ)
    (fields : List HttpHeaderView) : Prop :=
  match budget.addFields fields with
  | none => visited.1 = .sectionTooLarge
  | some charged =>
    visited = (.ok, charged, (fields.filter fun field => !discardedName field.name).foldl next s)

/-- **An accepted block has fields**, the same for every policy, visitor and budget; induction on the visit. -/
theorem visitTrailerFields_fields {σ : Type} {discardedName : Bytes → Bool} {visitor : σ → Bytes → Bytes → σ × Bool}
    {fuel : Nat} {budget : HttpFieldSectionBudget} {s : σ}
    (h : (visitTrailerFields block .reject discardedName visitor fuel cursor budget s).1 = .ok) :
    ∃ fields, ∀ (τ : Type) (discarded : Bytes → Bool) (next : τ → HttpHeaderView → τ)
      (limit : HttpFieldSectionBudget) (t : τ),
      VisitsFields (visitTrailerFields block .reject discarded (keepField next) fuel cursor limit t) discarded next
        limit t fields := by
  induction fuel generalizing cursor budget s with
  | zero => cases h
  | succ fuel ih =>
    rw [visitTrailerFields_succ] at h
    simp only [visitTrailerFields_succ]
    by_cases hend : block.length ≤ cursor
    · refine ⟨[], fun τ discarded next limit t => ?_⟩
      rw [if_pos hend]
      rfl
    · rw [if_neg hend] at h
      simp only [if_neg hend]
      cases hfield : trailerFieldAt block .reject cursor with
      | none =>
        rw [hfield] at h
        cases h
      | some found =>
        obtain ⟨name, field⟩ := found
        rw [hfield] at h
        dsimp only at h ⊢
        rw [trailerFieldAt_valueBytes hfield] at h ⊢
        split at h
        · cases h
        · split at h
          · cases h
          · -- the one field, in front of what the lines behind it hold
            have hone : ∀ (τ : Type) (discarded : Bytes → Bool) (next : τ → HttpHeaderView → τ) (t : τ),
                visitField discarded (keepField next) t name (field.value.bytes block) =
                  (([⟨name, field.value.bytes block⟩].filter fun field => !discarded field.name).foldl next t,
                    true) := by
              intro τ discarded next t
              rw [visitField, keepField]
              by_cases hdiscarded : discarded name = true
              all_goals simp [hdiscarded]
            cases hline : field.lineEnd with
            | none =>
              refine ⟨[⟨name, field.value.bytes block⟩], fun τ discarded next limit t => ?_⟩
              rw [VisitsFields, HttpFieldSectionBudget.addFields]
              cases limit.addField name.length (field.value.bytes block).length with
              | none => rfl
              | some charged =>
                simp only [HttpFieldSectionBudget.addFields, hone]
                rfl
            | some stop =>
              rw [hline] at h
              obtain ⟨fields, hfields⟩ := ih h
              refine ⟨⟨name, field.value.bytes block⟩ :: fields, fun τ discarded next limit t => ?_⟩
              rw [VisitsFields, HttpFieldSectionBudget.addFields]
              cases limit.addField name.length (field.value.bytes block).length with
              | none => rfl
              | some charged =>
                simp only [hone, Bool.true_eq_false, if_false]
                have hrest := hfields τ discarded next charged
                  (([⟨name, field.value.bytes block⟩].filter fun field => !discarded field.name).foldl next t)
                rw [VisitsFields, ← List.foldl_append, ← List.filter_append] at hrest
                exact hrest

/-- The fields the decoder's own check goes over. -/
def decodedTrailerFields (block : Bytes) : List HttpHeaderView :=
  (visitHttp1TrailerBlock block .reject (fun _ => false) httpTrailerSectionBudget (keepField collectFields) []).2.2

/-- **A block that passed the decoder's check is its fields**, for whoever visits it. -/
theorem visitHttp1TrailerBlock_decoded (h : trailersValid .reject block = true) :
    (httpTrailerSectionBudget.addFields (decodedTrailerFields block)).isSome = true ∧
    ∀ (τ : Type) (discarded : Bytes → Bool) (next : τ → HttpHeaderView → τ) (limit : HttpFieldSectionBudget) (t : τ),
      VisitsFields (visitHttp1TrailerBlock block .reject discarded limit (keepField next) t) discarded next limit t
        (decodedTrailerFields block) := by
  rw [trailersValid, beq_iff_eq] at h
  have hsize : ¬ maxHttpHeaderBytes < block.length := by
    intro hsize
    rw [visitHttp1TrailerBlock, if_pos hsize] at h
    cases h
  simp only [decodedTrailerFields, visitHttp1TrailerBlock, if_neg hsize] at h ⊢
  obtain ⟨fields, hfields⟩ := visitTrailerFields_fields h
  have hchecked := hfields Unit (fun _ => false) (fun s _ => s) httpTrailerSectionBudget ()
  have hcollected := hfields _ (fun _ => false) collectFields httpTrailerSectionBudget []
  rw [VisitsFields] at hchecked hcollected
  cases hadd : httpTrailerSectionBudget.addFields fields with
  | none =>
    rw [hadd] at hchecked
    exact absurd (h.symm.trans hchecked) (by decide)
  | some charged =>
    rw [hadd] at hcollected
    simp only [Bool.not_false, List.filter_true, foldl_collectFields, List.nil_append] at hcollected
    rw [hcollected, hadd]
    exact ⟨rfl, hfields⟩

/-! ## What the decoder publishes -/

/-- A block as the decoder publishes it. -/
structure PublishedBlock (obsFold : Http1TrailerObsFold) (block : Bytes) : Prop where
  length_le : block.length ≤ maxHttpHeaderBytes
  lineEnd : endsWith block [cr, lf] = false
  valid : trailersValid obsFold block = true

theorem endsWith_iff {text ending : Bytes} : endsWith text ending = true ↔ ∃ front, front ++ ending = text :=
  List.isSuffixOf_iff_suffix

/-- The section ends at the first empty line, so no line end is left in front of it. -/
theorem endsWith_of_scanTrailers {window : Bytes} {trailerEnd : Nat}
    (h : scanTrailers window 0 = .section trailerEnd) : endsWith (window.take trailerEnd) [cr, lf] = false := by
  have hverdict := scanTrailers_verdict window 0
  rw [h] at hverdict
  obtain ⟨-, hlast, hbare, hfirst⟩ := hverdict
  rw [Bool.eq_false_iff]
  intro hends
  obtain ⟨front, hfront⟩ := endsWith_iff.mp hends
  have hinside := hlast.lt_length
  have hlength := congrArg List.length hfront
  rw [List.length_append, List.length_take] at hlength
  simp only [List.length_cons, List.length_nil] at hlength
  have hbefore : window[trailerEnd - 1]? = some lf := by
    have hlf : (front ++ [cr, lf])[trailerEnd - 1]? = some lf := by
      rw [List.getElem?_append_right (by omega), show trailerEnd - 1 - front.length = 1 by omega]
      rfl
    rw [hfront, List.getElem?_take_of_lt (by omega)] at hlf
    exact hlf
  -- the LF of the last field line would already end the section
  have hempty : window[trailerEnd + 1]? = some lf := (hlast.2.resolve_left hbare).2
  refine hfirst (trailerEnd + 1) (Nat.zero_le _) (by omega) ⟨hempty, .inr ⟨by omega, ?_⟩⟩
  rw [show trailerEnd + 1 - 2 = trailerEnd - 1 by omega]
  exact hbefore

variable {wire body : Bytes} {consumed : Nat}

theorem trailersOutcome_published {obsFold : Http1TrailerObsFold}
    (h : trailersOutcome obsFold wire = .complete body consumed block) : PublishedBlock obsFold block := by
  simp only [trailersOutcome] at h
  split at h
  · cases h
    exact ⟨Nat.zero_le _, rfl, by cases obsFold <;> rfl⟩
  · split at h
    · cases h
    · cases h
    · cases h
    · rename_i trailerEnd hscan
      split at h
      · cases h
      · rename_i hvalid
        cases h
        refine ⟨?_, endsWith_of_scanTrailers hscan, Bool.not_eq_false _ ▸ hvalid⟩
        simp only [List.length_take]
        omega

theorem ChunkedOutcome.of_prepend_complete {o : ChunkedOutcome} {bytes : Bytes} {total : Nat}
    (h : o.prepend bytes consumed = .complete body total block) : ∃ rest left, o = .complete rest left block := by
  cases o with
  | complete rest left trailers =>
    cases h
    exact ⟨rest, left, rfl⟩
  | failed error | starved rest left => cases h

variable {config : Http1ChunkedBodyDecoderConfig}

/-- Induction on the stream: every size line is taken off its front. -/
theorem sizeLineOutcome_published {decoded overhead total : Nat}
    (h : sizeLineOutcome config decoded overhead wire = .complete body total block) :
    PublishedBlock config.obsFold block := by
  induction hlength : wire.length using Nat.strong_induction_on generalizing wire decoded overhead body total with
  | _ length ih =>
    subst hlength
    rw [sizeLineOutcome] at h
    split at h
    · cases h
    · cases h
    · cases h
    · rename_i lineEnd hscan
      have hline := lt_of_scanSizeLine_line hscan
      rw [List.length_take] at hline
      split at h
      · cases h
      · split at h
        · cases h
        · split at h
          · obtain ⟨rest, left, htrailers⟩ := ChunkedOutcome.of_prepend_complete h
            exact trailersOutcome_published htrailers
          · split at h
            · cases h
            · obtain ⟨rest, left, hbody⟩ := ChunkedOutcome.of_prepend_complete h
              rw [bodyOutcome] at hbody
              split at hbody
              · cases hbody
              · obtain ⟨rest, left, hdelimiter⟩ := ChunkedOutcome.of_prepend_complete hbody
                rw [delimiterOutcome] at hdelimiter
                split at hdelimiter
                · cases hdelimiter
                · split at hdelimiter
                  · obtain ⟨rest, left, hnext⟩ := ChunkedOutcome.of_prepend_complete hdelimiter
                    refine ih _ ?_ hnext rfl
                    simp only [List.length_drop]
                    omega
                  · cases hdelimiter

/-- **What any delivery publishes is a published block.** -/
theorem ChunkedDriver.drive_published {acts : List (Action UInt8 BodyQuota)}
    (h : (ChunkedDriver.drive config acts).status = .complete block) : PublishedBlock config.obsFold block := by
  have houtcome : (ChunkedDriver.drive config acts).outcome [] =
      (ChunkedDriver.init config).outcome (Action.delivered acts ++ []) :=
    ChunkedDriver.chunkedDriver_meaning.run_value (ChunkedDriver.init_sound config) acts []
  simp only [ChunkedDriver.outcome, h] at houtcome
  obtain ⟨rest, left, hfirst⟩ := ChunkedOutcome.of_prepend_complete houtcome.symm
  exact sizeLineOutcome_published hfirst

/-! ## The recipient of a published block -/

/-- What is retained of the fields of a received block. -/
def receivedTrailers (block : Bytes) : List HttpHeaderView :=
  ((decodedTrailerFields block).filter fun field => !isForbiddenHttpRequestTrailerName field.name).map
    copyWithLowercaseName

theorem withoutTerminator_eq (h : endsWith block [cr, lf] = false) : withoutTerminator block = some block := by
  have hlong : endsWith block [cr, lf, cr, lf] = false := by
    rw [Bool.eq_false_iff]
    intro hends
    obtain ⟨front, hfront⟩ := endsWith_iff.mp hends
    rw [endsWith_iff.mpr ⟨front ++ [cr, lf], by rw [← hfront, List.append_assoc]; rfl⟩] at h
    cases h
  rw [withoutTerminator, hlong, h]
  rfl

/-- The visitor when no allocation fails. -/
def retainField (retention : TrailerRetention) (field : HttpHeaderView) : TrailerRetention :=
  { retention with fields := retention.fields ++ [copyWithLowercaseName field], steps := retention.steps + 1 }

theorem foldl_retainField (fields : List HttpHeaderView) (retention : TrailerRetention) :
    fields.foldl retainField retention =
      ⟨retention.fields ++ fields.map copyWithLowercaseName, retention.steps + fields.length, retention.threw⟩ := by
  induction fields generalizing retention with
  | nil => simp
  | cons field fields ih =>
    rw [List.foldl_cons, ih, retainField]
    simp only [List.map_cons, List.length_cons, List.append_assoc, List.cons_append, List.nil_append,
      TrailerRetention.mk.injEq, true_and, and_true]
    omega

namespace HttpRequestTrailers

variable {trailers : HttpRequestTrailers} {allocates : Allocations}

/-- **A published block is accepted** by a section with room for it, and read as the fields of the decoder. -/
theorem appendHttp1_published {block : Bytes} {charged : HttpFieldSectionBudget}
    (hblock : PublishedBlock .reject block)
    (hroom : trailers.budget.addFields (decodedTrailerFields block) = some charged) :
    trailers.appendHttp1 .plenty block = (⟨trailers.fields ++ receivedTrailers block, charged⟩, .appended) := by
  have hvisit := (visitHttp1TrailerBlock_decoded hblock.valid).2 TrailerRetention isForbiddenHttpRequestTrailerName
    retainField trailers.budget { fields := trailers.fields }
  rw [VisitsFields, hroom, foldl_retainField] at hvisit
  rw [appendHttp1, if_neg (Nat.not_lt.mpr hblock.length_le), withoutTerminator_eq hblock.lineEnd]
  have hretain : TrailerRetention.retain .plenty = keepField retainField := by
    funext retention name value
    rfl
  simp only [hretain, hvisit]
  rfl

/-! ## All or none -/

theorem append_all_or_none (trailers : HttpRequestTrailers) (allocates : Allocations) (fields : List HttpHeaderView) :
    (trailers.append allocates fields).2 = .appended ∨ (trailers.append allocates fields).1 = trailers := by
  unfold append
  split
  · exact .inr rfl
  · split
    · exact .inr rfl
    · split
      · exact .inr rfl
      · split
        · exact .inr rfl
        · split
          · exact .inr rfl
          · exact .inl rfl

/-- The fields of before stay in front of what a visit retains. -/
theorem retain_prefix (retention : TrailerRetention) (name value : Bytes)
    (h : trailers.fields <+: retention.fields) :
    trailers.fields <+: (retention.retain allocates name value).1.fields := by
  rw [TrailerRetention.retain]
  split
  · exact h
  · exact h.trans (List.prefix_append _ _)

theorem rollBack_eq {retained : List HttpHeaderView} (h : trailers.fields <+: retained) :
    trailers.rollBack retained = trailers := by
  rw [rollBack, ← List.prefix_iff_eq_take.mp h]

/-- A failure erases whatever the visit has retained by then. -/
theorem appendHttp1_all_or_none (trailers : HttpRequestTrailers) (allocates : Allocations) (block : Bytes) :
    (trailers.appendHttp1 allocates block).2 = .appended ∨ (trailers.appendHttp1 allocates block).1 = trailers := by
  unfold appendHttp1
  split
  · exact .inr rfl
  · split
    · exact .inr rfl
    · rename_i text _
      have hfront : trailers.fields <+: (visitHttp1TrailerBlock text .reject isForbiddenHttpRequestTrailerName
          trailers.budget (TrailerRetention.retain allocates) { fields := trailers.fields }).2.2.fields := by
        rw [visitHttp1TrailerBlock]
        split
        · exact List.prefix_refl _
        · exact visitTrailerFields_keeps (P := fun retention : TrailerRetention => trailers.fields <+: retention.fields)
            retain_prefix (List.prefix_refl _)
      generalize visitHttp1TrailerBlock text _ _ _ _ _ = visited at hfront ⊢
      obtain ⟨status, budget, retention⟩ := visited
      dsimp only at hfront ⊢
      split
      · exact .inr (rollBack_eq hfront)
      · cases status with
        | ok => exact .inl rfl
        | invalidField | sectionTooLarge | visitorStopped => exact .inr (rollBack_eq hfront)

end HttpRequestTrailers

/-- **Request trailers: agreement and atomicity.** A block any delivery to the chunked decoder publishes, obs-fold
rejected, has fields the initial budget has room for, and every empty section with room for them accepts it and retains
exactly those not forbidden in request trailers, in order, their names in lower case. And for every section, input and
course of allocations, an append that does not succeed leaves the fields and the budget as they were. -/
theorem requestTrailers_agree_and_atomic :
    (∀ config acts block, config.obsFold = .reject →
      (ChunkedDriver.drive config acts).status = .complete block →
        (httpTrailerSectionBudget.addFields (decodedTrailerFields block)).isSome = true ∧
        ∀ (trailers : HttpRequestTrailers) (charged : HttpFieldSectionBudget), trailers.fields = [] →
          trailers.budget.addFields (decodedTrailerFields block) = some charged →
            trailers.appendHttp1 .plenty block = (⟨receivedTrailers block, charged⟩, .appended)) ∧
    (∀ (trailers : HttpRequestTrailers) (allocates : Allocations) (fields : List HttpHeaderView),
      (trailers.append allocates fields).2 ≠ .appended → (trailers.append allocates fields).1 = trailers) ∧
    ∀ (trailers : HttpRequestTrailers) (allocates : Allocations) (block : Bytes),
      (trailers.appendHttp1 allocates block).2 ≠ .appended → (trailers.appendHttp1 allocates block).1 = trailers := by
  refine ⟨fun config acts block hfold hstatus => ?_, fun trailers allocates fields h => ?_,
    fun trailers allocates block h => ?_⟩
  · have hblock := ChunkedDriver.drive_published hstatus
    rw [hfold] at hblock
    refine ⟨(visitHttp1TrailerBlock_decoded hblock.valid).1, fun trailers charged hempty hroom => ?_⟩
    rw [HttpRequestTrailers.appendHttp1_published hblock hroom, hempty, List.nil_append]
  · exact (HttpRequestTrailers.append_all_or_none trailers allocates fields).resolve_left h
  · exact (HttpRequestTrailers.appendHttp1_all_or_none trailers allocates block).resolve_left h

/-- The body and trailer section of a request that names its host again. -/
def hostTrailerDelivery : List (Action UInt8 BodyQuota) :=
  [.arrive (lit "0\r\nHost:a\r\n\r\n"), .turn BodyQuota.unlimited]

/-- A field the decoder reads need not be retained. -/
theorem hostTrailer_discarded :
    ¬ ∀ config acts block, config.obsFold = .reject →
      (ChunkedDriver.drive config acts).status = .complete block →
        ∃ retained, HttpRequestTrailers.appendHttp1 {} .plenty block = (retained, .appended) ∧
          retained.fields = (decodedTrailerFields block).map copyWithLowercaseName := by
  intro h
  obtain ⟨retained, happend, hfields⟩ := h {} hostTrailerDelivery (lit "Host:a") rfl (by decide +kernel)
  have hnone : (HttpRequestTrailers.appendHttp1 {} .plenty (lit "Host:a")).1.fields = [] := by decide +kernel
  have hone : (decodedTrailerFields (lit "Host:a")).map copyWithLowercaseName = [⟨lit "host", lit "a"⟩] := by
    decide +kernel
  rw [happend, hfields, hone] at hnone
  cases hnone

end Ruvia.Http
