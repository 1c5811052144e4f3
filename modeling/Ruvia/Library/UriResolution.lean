import Mathlib.Data.List.DropRight
import Ruvia.Library.ByteString

/-!
# `Library.UriResolution` — resolving a URI reference against a base

RFC 3986, section 5.2: `removeDotSegments` with its input and its output buffer, `merge` and `resolve`. Of a path that
begins with a slash every pass of the loop takes one segment (`removeDotSegments_ofSegments`), so that none of the
segments left is a dot segment, and an empty one stays (`removeDotSegments_spec`).
-/

namespace Library

namespace UriResolution

abbrev slash : UInt8 := 0x2f

/-! ## The algorithm -/

/-- The output buffer without its last segment and the slash in front of it. -/
def removeLastSegment (output : Bytes) : Bytes := (output.rdropWhile (· != slash)).dropLast

/-- One pass over the input buffer. -/
def dotSegmentStep (input output : Bytes) : Bytes × Bytes :=
  if (lit "../").isPrefixOf input then (input.drop 3, output)
  else if (lit "./").isPrefixOf input then (input.drop 2, output)
  else if (lit "/./").isPrefixOf input then (input.drop 2, output)
  else if input = lit "/." then (lit "/", output)
  else if (lit "/../").isPrefixOf input then (input.drop 3, removeLastSegment output)
  else if input = lit "/.." then (lit "/", removeLastSegment output)
  else if input = lit "." ∨ input = lit ".." then ([], output)
  else (input.tail.dropWhile (· != slash), output ++ (input.take 1 ++ input.tail.takeWhile (· != slash)))

theorem dotSegmentStep_length {input : Bytes} (h : input ≠ []) (output : Bytes) :
    (dotSegmentStep input output).1.length < input.length := by
  obtain ⟨first, rest, rfl⟩ := List.exists_cons_of_ne_nil h
  unfold dotSegmentStep
  split_ifs with h1 h2 h3 h4 h5 h6 h7
  · simp only [List.length_drop, List.length_cons]
    omega
  · simp only [List.length_drop, List.length_cons]
    omega
  · simp only [List.length_drop, List.length_cons]
    omega
  · rw [h4]
    exact Nat.lt_succ_self 1
  · simp only [List.length_drop, List.length_cons]
    omega
  · rw [h6]
    show 1 < 3
    omega
  · exact Nat.succ_pos _
  · exact Nat.lt_succ_of_le (List.length_dropWhile_le _ _)

/-- "Remove dot segments", from an input and an output buffer on. -/
def removeDotSegmentsFrom (input output : Bytes) : Bytes :=
  if _h : input = [] then output
  else removeDotSegmentsFrom (dotSegmentStep input output).1 (dotSegmentStep input output).2
termination_by input.length
decreasing_by exact dotSegmentStep_length _h output

def removeDotSegments (path : Bytes) : Bytes := removeDotSegmentsFrom path []

example : removeDotSegments (lit "/a/b/c/./../../g") = lit "/a/g" := by decide +kernel
example : removeDotSegments (lit "/a//.") = lit "/a//" := by decide +kernel

/-- A reference, and with a scheme a URI; the scheme and the authority in a form of the application. -/
structure Reference (σ α : Type*) where
  scheme : Option σ
  authority : Option α
  path : Bytes
  query : Option Bytes
  deriving DecidableEq, Repr

/-- A base, or the target of a resolution. -/
structure Target (σ α : Type*) where
  scheme : σ
  authority : Option α
  path : Bytes
  query : Option Bytes
  deriving DecidableEq, Repr

section

variable {σ α : Type*}

/-- "Merge paths". -/
def merge (base : Target σ α) (path : Bytes) : Bytes :=
  if base.authority.isSome ∧ base.path = [] then slash :: path else base.path.rdropWhile (· != slash) ++ path

/-- "Transform references". -/
def resolve (base : Target σ α) (reference : Reference σ α) : Target σ α :=
  match reference.scheme with
  | some scheme => ⟨scheme, reference.authority, removeDotSegments reference.path, reference.query⟩
  | none =>
    match reference.authority with
    | some authority => ⟨base.scheme, some authority, removeDotSegments reference.path, reference.query⟩
    | none =>
      if reference.path = [] then
        ⟨base.scheme, base.authority, base.path, reference.query.or base.query⟩
      else if reference.path.head? = some slash then
        ⟨base.scheme, base.authority, removeDotSegments reference.path, reference.query⟩
      else ⟨base.scheme, base.authority, removeDotSegments (merge base reference.path), reference.query⟩

end

/-! ## Segments -/

/-- A path that begins with a slash, by its segments. -/
def ofSegments (segments : List Bytes) : Bytes := segments.flatMap (slash :: ·)

def IsDotSegment (segment : Bytes) : Prop := segment = lit "." ∨ segment = lit ".."

/-- The segments that are left, with the ones in the output. -/
def collapse : List Bytes → List Bytes → List Bytes
  | [], output => output
  | segment :: rest, output =>
    if segment = lit "." then if rest = [] then output ++ [[]] else collapse rest output
    else if segment = lit ".." then if rest = [] then output.dropLast ++ [[]] else collapse rest output.dropLast
    else collapse rest (output ++ [segment])

section

variable {segments output : List Bytes} {segment : Bytes}

theorem ofSegments_append (front back : List Bytes) :
    ofSegments (front ++ back) = ofSegments front ++ ofSegments back := List.flatMap_append

theorem ofSegments_cons (segment : Bytes) (segments : List Bytes) :
    ofSegments (segment :: segments) = slash :: (segment ++ ofSegments segments) := rfl

theorem ofSegments_singleton (segment : Bytes) : ofSegments [segment] = slash :: segment := by
  simp [ofSegments]

variable {path : Bytes}

/-- A path with a slash in front has segments. -/
theorem exists_segments (h : ∀ byte ∈ path.head?, byte = slash) :
    ∃ segments, path = ofSegments segments ∧ ∀ segment ∈ segments, slash ∉ segment := by
  induction hlength : path.length using Nat.strong_induction_on generalizing path with
  | _ n ih =>
    rcases path with _ | ⟨first, rest⟩
    · exact ⟨[], rfl, fun _ hmem => absurd hmem List.not_mem_nil⟩
    · obtain rfl := h first rfl
      have hhead : ∀ byte ∈ (rest.dropWhile (· != slash)).head?, byte = slash := by
        intro byte hbyte
        have hstop := List.head?_dropWhile_not (· != slash) rest
        rw [hbyte] at hstop
        simpa using hstop
      have hlt : (rest.dropWhile (· != slash)).length < n := by
        rw [← hlength]
        exact Nat.lt_succ_of_le (List.length_dropWhile_le _ _)
      obtain ⟨segments, hsegments, hfree⟩ := ih _ hlt hhead rfl
      refine ⟨rest.takeWhile (· != slash) :: segments, ?_, List.forall_mem_cons.mpr ⟨?_, hfree⟩⟩
      · rw [ofSegments_cons, ← hsegments, List.takeWhile_append_dropWhile]
      · intro hmem
        have hkept := List.mem_takeWhile_imp hmem
        simp at hkept

theorem rdropWhile_append_slash (h : slash ∉ segment) (front : Bytes) :
    (front ++ slash :: segment).rdropWhile (· != slash) = front ++ [slash] := by
  have hrun : ∀ byte ∈ segment.reverse, (byte != slash) = true := by
    intro byte hbyte
    rw [bne_iff_ne]
    rintro rfl
    exact h (List.mem_reverse.mp hbyte)
  unfold List.rdropWhile
  rw [List.reverse_append, List.reverse_cons, List.append_assoc, List.dropWhile_append_of_pos hrun]
  simp

/-- The last segment is removed with its slash. -/
theorem removeLastSegment_ofSegments (h : ∀ segment ∈ output, slash ∉ segment) :
    removeLastSegment (ofSegments output) = ofSegments output.dropLast := by
  rcases List.eq_nil_or_concat output with rfl | ⟨front, segment, rfl⟩
  · rfl
  · rw [List.concat_eq_append] at h ⊢
    rw [removeLastSegment, ofSegments_append, ofSegments_singleton, rdropWhile_append_slash (h segment (by simp)),
      List.dropLast_concat, List.dropLast_concat]

/-- A segment ends at the next slash. -/
theorem cut_at_slash (h : slash ∉ segment) {rest : Bytes} (hrest : ∀ byte ∈ rest.head?, byte = slash) :
    (segment ++ rest).takeWhile (· != slash) = segment ∧ (segment ++ rest).dropWhile (· != slash) = rest := by
  have hrun : ∀ byte ∈ segment, (byte != slash) = true := by
    intro byte hbyte
    rw [bne_iff_ne]
    rintro rfl
    exact h hbyte
  have hstop : ∀ byte, rest.head? = some byte → (byte != slash) = false := by
    intro byte hbyte
    rw [hrest byte hbyte]
    exact bne_self_eq_false slash
  exact ⟨takeWhile_run_stop hrun hstop, dropWhile_append_stop hrun hstop⟩

theorem append_inj_at_slash {segment' rest rest' : Bytes} (h : slash ∉ segment) (h' : slash ∉ segment')
    (hrest : ∀ byte ∈ rest.head?, byte = slash) (hrest' : ∀ byte ∈ rest'.head?, byte = slash)
    (heq : segment ++ rest = segment' ++ rest') : segment = segment' ∧ rest = rest' := by
  obtain ⟨htake, hdrop⟩ := cut_at_slash h hrest
  obtain ⟨htake', hdrop'⟩ := cut_at_slash h' hrest'
  rw [heq] at htake hdrop
  exact ⟨htake.symm.trans htake', hdrop.symm.trans hdrop'⟩

theorem head_ofSegments (segments : List Bytes) : ∀ byte ∈ (ofSegments segments).head?, byte = slash := by
  intro byte hbyte
  cases segments with
  | nil => cases hbyte
  | cons segment segments => exact (Option.some.inj hbyte).symm

/-- A dot segment in front of others, and one at the end. -/
theorem isPrefixOf_segment_iff {dots rest : Bytes} (hdots : slash ∉ dots) (h : slash ∉ segment)
    (hrest : ∀ byte ∈ rest.head?, byte = slash) :
    (slash :: (dots ++ [slash])).isPrefixOf (slash :: (segment ++ rest)) = true ↔ segment = dots ∧ rest ≠ [] := by
  rw [List.isPrefixOf_iff_prefix, List.cons_prefix_cons]
  constructor
  · rintro ⟨-, tail, heq⟩
    rw [List.append_assoc] at heq
    obtain ⟨rfl, rfl⟩ := append_inj_at_slash hdots h (by simp) hrest heq
    exact ⟨rfl, by simp⟩
  · rintro ⟨rfl, hne⟩
    obtain ⟨byte, tail, rfl⟩ := List.exists_cons_of_ne_nil hne
    obtain rfl := hrest byte rfl
    exact ⟨rfl, tail, by simp⟩

theorem eq_segment_iff {dots rest : Bytes} (hdots : slash ∉ dots) (h : slash ∉ segment)
    (hrest : ∀ byte ∈ rest.head?, byte = slash) :
    slash :: (segment ++ rest) = slash :: dots ↔ segment = dots ∧ rest = [] := by
  constructor
  · intro heq
    have htail := (List.cons.inj heq).2
    rw [← List.append_nil dots] at htail
    exact append_inj_at_slash h hdots hrest (by simp) htail
  · rintro ⟨rfl, rfl⟩
    rw [List.append_nil]

/-- **One pass takes one segment.** -/
theorem dotSegmentStep_segment (h : slash ∉ segment) {rest : Bytes} (hrest : ∀ byte ∈ rest.head?, byte = slash)
    (output : Bytes) :
    dotSegmentStep (slash :: (segment ++ rest)) output =
      if segment = lit "." then (if rest = [] then lit "/" else rest, output)
      else if segment = lit ".." then (if rest = [] then lit "/" else rest, removeLastSegment output)
      else (rest, output ++ slash :: segment) := by
  have hone : (lit "/./").isPrefixOf (slash :: (segment ++ rest)) = true ↔ segment = lit "." ∧ rest ≠ [] :=
    @isPrefixOf_segment_iff segment (lit ".") rest (by decide) h hrest
  have hone' : slash :: (segment ++ rest) = lit "/." ↔ segment = lit "." ∧ rest = [] :=
    @eq_segment_iff segment (lit ".") rest (by decide) h hrest
  have htwo : (lit "/../").isPrefixOf (slash :: (segment ++ rest)) = true ↔ segment = lit ".." ∧ rest ≠ [] :=
    @isPrefixOf_segment_iff segment (lit "..") rest (by decide) h hrest
  have htwo' : slash :: (segment ++ rest) = lit "/.." ↔ segment = lit ".." ∧ rest = [] :=
    @eq_segment_iff segment (lit "..") rest (by decide) h hrest
  obtain ⟨htake, hdrop⟩ := cut_at_slash h hrest
  unfold dotSegmentStep
  by_cases hdot : segment = lit "."
  · subst hdot
    rw [if_pos rfl]
    by_cases hnil : rest = []
    · subst hnil
      rfl
    · rw [if_neg hnil]
      exact if_pos (hone.mpr ⟨rfl, hnil⟩)
  · rw [if_neg hdot, if_neg (fun hprefix => hdot (hone.mp hprefix).1), if_neg (fun heq => hdot (hone'.mp heq).1)]
    by_cases hdots : segment = lit ".."
    · subst hdots
      rw [if_pos rfl]
      by_cases hnil : rest = []
      · subst hnil
        rfl
      · rw [if_neg hnil]
        exact if_pos (htwo.mpr ⟨rfl, hnil⟩)
    · rw [if_neg hdots, if_neg (fun hprefix => hdots (htwo.mp hprefix).1),
        if_neg (fun heq => hdots (htwo'.mp heq).1), if_neg]
      · rw [List.tail_cons, htake, hdrop]
        rfl
      · rintro (heq | heq) <;> cases heq

theorem removeDotSegmentsFrom_cons {input : Bytes} (h : input ≠ []) (output : Bytes) :
    removeDotSegmentsFrom input output =
      removeDotSegmentsFrom (dotSegmentStep input output).1 (dotSegmentStep input output).2 := by
  rw [removeDotSegmentsFrom, dif_neg h]

@[simp] theorem removeDotSegmentsFrom_nil (output : Bytes) : removeDotSegmentsFrom [] output = output := by
  rw [removeDotSegmentsFrom, dif_pos rfl]

theorem removeDotSegmentsFrom_slash (output : List Bytes) :
    removeDotSegmentsFrom (lit "/") (ofSegments output) = ofSegments (output ++ [[]]) := by
  rw [removeDotSegmentsFrom_cons (by decide), show lit "/" = slash :: ([] ++ []) from rfl,
    dotSegmentStep_segment List.not_mem_nil (by simp), if_neg (by decide), if_neg (by decide),
    removeDotSegmentsFrom_nil, ofSegments_append, ofSegments_singleton]

theorem ofSegments_eq_nil_iff : ofSegments segments = [] ↔ segments = [] := by
  cases segments <;> simp [ofSegments]

/-- **The loop works segment by segment.** -/
theorem removeDotSegments_ofSegments (h : ∀ segment ∈ segments, slash ∉ segment)
    (houtput : ∀ segment ∈ output, slash ∉ segment) :
    removeDotSegmentsFrom (ofSegments segments) (ofSegments output) = ofSegments (collapse segments output) := by
  induction segments generalizing output with
  | nil => rw [show ofSegments [] = [] from rfl, removeDotSegmentsFrom_nil, collapse]
  | cons segment rest ih =>
    obtain ⟨hsegment, hrest⟩ := List.forall_mem_cons.mp h
    have hlast : ∀ segment ∈ output.dropLast, slash ∉ segment := fun other hother =>
      houtput other (List.mem_of_mem_dropLast hother)
    rw [ofSegments_cons, removeDotSegmentsFrom_cons (List.cons_ne_nil _ _),
      dotSegmentStep_segment hsegment (head_ofSegments rest), collapse]
    simp only [ofSegments_eq_nil_iff]
    by_cases hdot : segment = lit "."
    · rw [if_pos hdot, if_pos hdot]
      by_cases hnil : rest = []
      · rw [if_pos hnil, if_pos hnil]
        exact removeDotSegmentsFrom_slash output
      · rw [if_neg hnil, if_neg hnil]
        exact ih hrest houtput
    · rw [if_neg hdot, if_neg hdot]
      by_cases hdots : segment = lit ".."
      · rw [if_pos hdots, if_pos hdots, removeLastSegment_ofSegments houtput]
        by_cases hnil : rest = []
        · rw [if_pos hnil, if_pos hnil]
          exact removeDotSegmentsFrom_slash output.dropLast
        · rw [if_neg hnil, if_neg hnil]
          exact ih hrest hlast
      · rw [if_neg hdots, if_neg hdots, ← ofSegments_singleton, ← ofSegments_append]
        apply ih hrest
        intro other hother
        rcases List.mem_append.mp hother with hother | hother
        · exact houtput other hother
        · rw [List.mem_singleton.mp hother]
          exact hsegment

/-- What holds of the segments that are not dot segments, and of the empty one, holds of those that are left. -/
theorem forall_mem_collapse {P : Bytes → Prop} (hempty : P [])
    (h : ∀ segment ∈ segments, ¬IsDotSegment segment → P segment) (houtput : ∀ segment ∈ output, P segment) :
    ∀ segment ∈ collapse segments output, P segment := by
  induction segments generalizing output with
  | nil => exact houtput
  | cons segment rest ih =>
    obtain ⟨hsegment, hrest⟩ := List.forall_mem_cons.mp h
    have happend : ∀ {front : List Bytes} {last : Bytes}, (∀ segment ∈ front, P segment) → P last →
        ∀ segment ∈ front ++ [last], P segment := by
      intro front last hfront hlast other hother
      rcases List.mem_append.mp hother with hother | hother
      · exact hfront other hother
      · rw [List.mem_singleton.mp hother]
        exact hlast
    have hdropLast : ∀ segment ∈ output.dropLast, P segment := fun other hother =>
      houtput other (List.mem_of_mem_dropLast hother)
    rw [collapse]
    split_ifs with hdot hnil hdots hnil
    · exact happend houtput hempty
    · exact ih hrest houtput
    · exact happend hdropLast hempty
    · exact ih hrest hdropLast
    · exact ih hrest (happend houtput (hsegment fun hor => hor.elim hdot hdots))

theorem splitOn_segments (h : slash ∉ segment) (hsegments : ∀ segment ∈ segments, slash ∉ segment) :
    (segment ++ ofSegments segments).splitOn slash = segment :: segments := by
  induction segments generalizing segment with
  | nil =>
    rw [show ofSegments [] = [] from rfl, List.append_nil]
    exact List.splitOn_eq_singleton h
  | cons next rest ih =>
    obtain ⟨hnext, hrest⟩ := List.forall_mem_cons.mp hsegments
    rw [ofSegments_cons, List.splitOn_append_cons_self_of_not_mem h, ih hnext hrest]

/-- A path has no dot segment. -/
def NoDotSegment (path : Bytes) : Prop := ∀ segment ∈ path.splitOn slash, ¬IsDotSegment segment

theorem noDotSegment_ofSegments (h : ∀ segment ∈ segments, slash ∉ segment ∧ ¬IsDotSegment segment) :
    NoDotSegment (ofSegments segments) := by
  have hsplit := splitOn_segments List.not_mem_nil fun segment hsegment => (h segment hsegment).1
  rw [List.nil_append] at hsplit
  unfold NoDotSegment
  rw [hsplit]
  intro segment hsegment
  rcases List.mem_cons.mp hsegment with rfl | hsegment
  · rintro (heq | heq) <;> cases heq
  · exact (h segment hsegment).2

theorem collapse_ne_nil (h : segments ≠ []) (output : List Bytes) : collapse segments output ≠ [] := by
  induction segments generalizing output with
  | nil => exact absurd rfl h
  | cons segment rest ih =>
    rw [collapse]
    split_ifs with hdot hnil hdots hnil
    · simp
    · exact ih hnil _
    · simp
    · exact ih hnil _
    · by_cases hnil : rest = []
      · rw [hnil, collapse]
        simp
      · exact ih hnil _

section

variable (h : path.head? = some slash)
include h

/-- The segments of a path that begins with a slash. -/
theorem exists_segments_of_rooted :
    ∃ segments, segments ≠ [] ∧ path = ofSegments segments ∧ ∀ segment ∈ segments, slash ∉ segment := by
  have hhead : ∀ byte ∈ path.head?, byte = slash := by
    intro byte hbyte
    rw [h] at hbyte
    exact (Option.some.inj hbyte).symm
  obtain ⟨segments, rfl, hfree⟩ := exists_segments hhead
  refine ⟨segments, ?_, rfl, hfree⟩
  rintro rfl
  cases h

/-- **No dot segment is left** of a path that begins with a slash. -/
theorem removeDotSegments_spec :
    NoDotSegment (removeDotSegments path) ∧ (removeDotSegments path).head? = some slash := by
  obtain ⟨segments, hne, rfl, hfree⟩ := exists_segments_of_rooted h
  have hpath : removeDotSegments (ofSegments segments) = ofSegments (collapse segments []) :=
    removeDotSegments_ofSegments hfree fun _ hmem => absurd hmem List.not_mem_nil
  rw [hpath]
  constructor
  · apply noDotSegment_ofSegments
    apply forall_mem_collapse
    · refine ⟨List.not_mem_nil, ?_⟩
      rintro (heq | heq) <;> cases heq
    · exact fun segment hsegment hdots => ⟨hfree segment hsegment, hdots⟩
    · exact fun _ hmem => absurd hmem List.not_mem_nil
  · obtain ⟨first, rest, hcons⟩ := List.exists_cons_of_ne_nil (collapse_ne_nil hne [])
    rw [hcons]
    rfl

/-- A path without a dot behind a slash stays as it is. -/
theorem removeDotSegments_of_no_dot (hdot : ¬lit "/." <:+: path) : removeDotSegments path = path := by
  obtain ⟨segments, hne, rfl, hfree⟩ := exists_segments_of_rooted h
  have hpath : removeDotSegments (ofSegments segments) = ofSegments (collapse segments []) :=
    removeDotSegments_ofSegments hfree fun _ hmem => absurd hmem List.not_mem_nil
  have hplain : ∀ segment ∈ segments, ¬IsDotSegment segment := by
    intro segment hsegment hdots
    obtain ⟨front, back, rfl⟩ := List.append_of_mem hsegment
    apply hdot
    obtain ⟨tail, htail⟩ : ∃ tail, segment = 0x2e :: tail := by
      rcases hdots with rfl | rfl <;> exact ⟨_, rfl⟩
    refine ⟨ofSegments front, tail ++ ofSegments back, ?_⟩
    rw [ofSegments_append, ofSegments_cons, htail]
    simp [lit]
  have hcollapse : ∀ (segments output : List Bytes), (∀ segment ∈ segments, ¬IsDotSegment segment) →
      collapse segments output = output ++ segments := by
    intro segments
    induction segments with
    | nil => exact fun output _ => (List.append_nil output).symm
    | cons segment rest ih =>
      intro output hall
      obtain ⟨hsegment, hrest⟩ := List.forall_mem_cons.mp hall
      rw [collapse, if_neg fun heq => hsegment (.inl heq), if_neg fun heq => hsegment (.inr heq), ih _ hrest]
      simp
  rw [hpath, hcollapse _ _ hplain, List.nil_append]

end

end

end UriResolution

end Library
