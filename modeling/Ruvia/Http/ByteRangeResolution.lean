import Ruvia.Http.ByteRange

/-!
# `Http.ByteRangeResolution` — what a byte-range set asks for

`IsRangeSet value specs` is the grammar of the field value, with numbers of any size, and `RangeSpec.part` says what a
spec asks of a representation. Against these, `resolve_http_byte_range_set` returns the union of the parts asked for in
as few ranges as possible (`Coalesced`), or ignores the value as a whole.
-/

namespace Ruvia.Http

open Library
open HttpByteRangeSet
open HttpByteRange

/-- A range spec: `first-last`, `first-` or `-length`. -/
inductive RangeSpec where
  | bounded (first last : Nat)
  | openEnded (first : Nat)
  | suffix (length : Nat)
  deriving DecidableEq, Repr

/-- A nonempty text of digits. -/
def IsDigits (text : Bytes) : Prop := text ≠ [] ∧ ∀ digit ∈ text, IsDecimalDigit digit

/-- The spec written as `text`. -/
inductive RangeSpec.Spelled : RangeSpec → Bytes → Prop
  | bounded {first last : Bytes} : IsDigits first → IsDigits last → decimalNumber first ≤ decimalNumber last →
      Spelled (.bounded (decimalNumber first) (decimalNumber last)) (first ++ hyphen :: last)
  | openEnded {first : Bytes} : IsDigits first → Spelled (.openEnded (decimalNumber first)) (first ++ [hyphen])
  | suffix {length : Bytes} : IsDigits length → Spelled (.suffix (decimalNumber length)) (hyphen :: length)

/-- The part of a representation of `length` bytes that the spec asks for, clamped to it; `none` if not
satisfiable. -/
def RangeSpec.part (length : Nat) : RangeSpec → Option (Stretch Nat)
  | .bounded first last => if first < length then some ⟨first, min (last + 1) length⟩ else none
  | .openEnded first => if first < length then some ⟨first, length⟩ else none
  | .suffix n => if 0 < n then some ⟨length - n, length⟩ else none

/-- The members of a list, without the whitespace around them. -/
abbrev trimmed (members : List Bytes) : List Bytes := members.map httpTrimOws

/-- The field value is a byte-range set of these specs: a list with optional whitespace around its members and at most
32 empty ones. -/
def IsRangeSet (value : Bytes) (specs : List RangeSpec) : Prop :=
  ∃ unit set, httpTrimOws value = unit ++ 0x3d :: set ∧ httpAsciiEqualsIgnoreCase unit (lit "bytes") = true ∧
    specs ≠ [] ∧
    ∃ members, members = trimmed ((httpTrimOws set).splitOn comma) ∧ members.count [] ≤ 32 ∧
      List.Forall₂ RangeSpec.Spelled specs (members.filter (· ≠ []))

/-- The bytes of a range. -/
def HttpByteRange.stretch (range : HttpByteRange) : Stretch Nat := ⟨range.offset, range.offset + range.length⟩

/-- Some specs of the set already make as many ranges as fit, and another spec follows. -/
def BeyondCapacity (length : Nat) (specs : List RangeSpec) : Prop :=
  ∃ k < specs.length, ∃ stretches, Coalesced ((specs.take k).filterMap (·.part length)) stretches ∧
    stretches.length = capacity

/-! ## Numbers -/

section

variable {digits first last : Bytes}

theorem isDigit_iff_isDecimalDigit {byte : UInt8} : isDigit byte = true ↔ IsDecimalDigit byte := by
  simp only [isDigit, IsDecimalDigit, Bool.and_eq_true, decide_eq_true_eq, UInt8.le_iff_toNat_le]
  rfl

/-- A number that does not fit is the greatest one that does. -/
theorem parseNumber_of_isDigits (h : IsDigits digits) :
    parseNumber digits = some (min (decimalNumber digits) (2 ^ 64 - 1)) := by
  have hall : ∀ byte ∈ digits, isDigit byte = true := fun byte hmem => isDigit_iff_isDecimalDigit.mpr (h.2 byte hmem)
  have htake : digits.takeWhile isDigit = digits := List.takeWhile_eq_self_iff.mpr hall
  have hdrop : digits.dropWhile isDigit = [] := List.dropWhile_eq_nil_iff.mpr hall
  rw [parseNumber, if_neg h.1, fromCharsUint64]
  simp only [htake, hdrop, if_neg h.1]
  by_cases hlt : decimalNumber digits < 2 ^ 64
  · simp only [if_pos hlt, ne_eq, not_true_eq_false, if_false]
    rw [min_eq_left (by omega)]
  · simp only [if_neg hlt, ne_eq, not_true_eq_false, if_false]
    rw [min_eq_right (by omega)]

theorem parseNumber_of_not_isDigits (h : ¬IsDigits digits) : parseNumber digits = none := by
  by_cases hnil : digits = []
  · rw [parseNumber, if_pos hnil]
  · have hrest : ∃ byte ∈ digits, isDigit byte = false := by
      by_contra hnone
      refine h ⟨hnil, fun byte hmem => isDigit_iff_isDecimalDigit.mp ?_⟩
      by_contra hbyte
      exact hnone ⟨byte, hmem, by simpa using hbyte⟩
    have hdrop : digits.dropWhile isDigit ≠ [] := by
      intro heq
      obtain ⟨byte, hmem, hbyte⟩ := hrest
      rw [List.dropWhile_eq_nil_iff.mp heq byte hmem] at hbyte
      cases hbyte
    rw [parseNumber, if_neg hnil, fromCharsUint64]
    by_cases htake : digits.takeWhile isDigit = []
    · simp only [htake, if_true, ne_eq, if_pos hnil]
    · simp only [if_neg htake]
      split_ifs <;> rfl

/-- The form without leading zeros: the same number, and a zero in front only where it stands alone. -/
theorem normalizedDigits_spec (h : IsDigits digits) :
    IsDigits (normalizedDigits digits) ∧ decimalNumber (normalizedDigits digits) = decimalNumber digits ∧
      ((normalizedDigits digits).length = 1 ∨ (normalizedDigits digits).head? ≠ some 0x30) := by
  fun_induction normalizedDigits digits with
  | case1 => exact absurd rfl h.1
  | case2 digit => exact ⟨h, rfl, .inl rfl⟩
  | case3 next rest ih =>
    obtain ⟨hdigits, hnumber, hhead⟩ := ih ⟨by simp, fun d hmem => h.2 d (List.mem_cons_of_mem _ hmem)⟩
    refine ⟨hdigits, ?_, hhead⟩
    rw [hnumber, decimalNumber_cons 0x30, digitNumber_zero, Nat.zero_mul, Nat.zero_add]
  | case4 digit next rest hne => exact ⟨h, rfl, .inr fun heq => hne (Option.some.inj heq)⟩

theorem decimalNumber_lt_of_length_lt (hfirst : IsDigits first) (hlast : IsDigits last)
    (hhead : last.length = 1 ∨ last.head? ≠ some 0x30) (hlength : first.length < last.length) :
    decimalNumber first < decimalNumber last := by
  have hpos := List.length_pos_iff.mpr hfirst.1
  have hhead : last.head? ≠ some 0x30 := hhead.resolve_left (by omega)
  calc decimalNumber first
    _ < 10 ^ first.length := decimalNumber_lt hfirst.2
    _ ≤ 10 ^ (last.length - 1) := Nat.pow_le_pow_right (by omega) (by omega)
    _ ≤ decimalNumber last := pow_le_decimalNumber hlast.2 hlast.1 hhead

/-- **The comparison of the texts** is that of the numbers, of any size. -/
theorem digitsExceed_iff (hfirst : IsDigits first) (hlast : IsDigits last) :
    digitsExceed first last = true ↔ decimalNumber last < decimalNumber first := by
  obtain ⟨hfirst, hfirstNumber, hfirstHead⟩ := normalizedDigits_spec hfirst
  obtain ⟨hlast, hlastNumber, hlastHead⟩ := normalizedDigits_spec hlast
  rw [digitsExceed, ← hfirstNumber, ← hlastNumber]
  simp only [Bool.or_eq_true, Bool.and_eq_true, beq_iff_eq, decide_eq_true_eq]
  rcases Nat.lt_trichotomy (normalizedDigits first).length (normalizedDigits last).length with hlt | heq | hgt
  · have hnumber := decimalNumber_lt_of_length_lt hfirst hlast hlastHead hlt
    constructor
    · rintro (h | ⟨h, -⟩) <;> omega
    · intro h
      omega
  · rw [lt_iff_decimalNumber_lt hlast.2 hfirst.2 heq.symm]
    constructor
    · rintro (h | ⟨-, h⟩)
      · omega
      · exact h
    · exact fun h => .inr ⟨heq, h⟩
  · exact ⟨fun _ => decimalNumber_lt_of_length_lt hlast hfirst hfirstHead hgt, fun _ => .inl hgt⟩

end

/-! ## Specs -/

/-- The range of a part. -/
def partOutcome : Option (Stretch Nat) → SpecOutcome
  | none => .unsatisfiable
  | some part => .range part.start (part.stop - part.start)

section

variable {length : Nat} {spec : RangeSpec} {text first last : Bytes} {part : Stretch Nat}

theorem hyphen_not_mem (h : ∀ digit ∈ text, IsDecimalDigit digit) : hyphen ∉ text := fun hmem =>
  absurd (h hyphen hmem) (by decide)

theorem ne_hyphen_of_mem (h : hyphen ∉ text) : ∀ byte ∈ text, (byte != hyphen) = true := fun byte hmem => by
  simpa using fun heq : byte = hyphen => h (heq ▸ hmem)

theorem eq_hyphen_of_head? : ∀ byte, (hyphen :: last).head? = some byte → (byte != hyphen) = false :=
  fun byte hhead => by simpa using (Option.some.inj hhead).symm

theorem resolveSpec_append (hfirst : hyphen ∉ first) (hlast : hyphen ∉ last) :
    resolveSpec length (first ++ hyphen :: last) =
      if first = [] then resolveSuffix length last else resolveInterval length first last := by
  have hrun := ne_hyphen_of_mem hfirst
  rw [resolveSpec]
  simp only [takeWhile_run_stop hrun eq_hyphen_of_head?, Library.dropWhile_append_stop hrun eq_hyphen_of_head?,
    if_neg hlast]

/-- What a spec asks for is not empty and lies inside the representation. -/
theorem RangeSpec.Spelled.part_bounds (h : spec.Spelled text) (hpos : 0 < length)
    (hpart : spec.part length = some part) : part.start < part.stop ∧ part.stop ≤ length := by
  cases h with
  | bounded hfirst hlast hle | suffix hlength =>
    rw [RangeSpec.part, Option.ite_none_right_eq_some] at hpart
    obtain ⟨hlt, hpart⟩ := hpart
    obtain rfl := Option.some.inj hpart
    simp only
    omega
  | openEnded hfirst =>
    rw [RangeSpec.part, Option.ite_none_right_eq_some] at hpart
    obtain ⟨hlt, hpart⟩ := hpart
    obtain rfl := Option.some.inj hpart
    exact ⟨hlt, Nat.le_refl _⟩

theorem resolveSuffix_of_isDigits (hlength : length < 2 ^ 64) (h : IsDigits last) :
    resolveSuffix length last = some (partOutcome (RangeSpec.part length (.suffix (decimalNumber last)))) := by
  rw [resolveSuffix, parseNumber_of_isDigits h, RangeSpec.part]
  by_cases hzero : decimalNumber last = 0
  · simp [hzero, partOutcome]
  · have hmin : min (min (decimalNumber last) (2 ^ 64 - 1)) length = min (decimalNumber last) length := by
      omega
    have hstart : length - min (decimalNumber last) length = length - decimalNumber last := by
      omega
    have hcount : length - (length - decimalNumber last) = min (decimalNumber last) length := by
      omega
    simp only
    rw [if_neg (by omega), if_pos (Nat.pos_of_ne_zero hzero), hmin,
      checkedSub_of_le (min_le_right _ _)]
    simp only [Option.bind_eq_bind, Option.bind_some, partOutcome, hstart, hcount]

section

variable (hlength : length < 2 ^ 64)
include hlength

theorem resolveInterval_of_isDigits (hfirst : IsDigits first) (hlast : IsDigits last) :
    resolveInterval length first last =
      some (if decimalNumber last < decimalNumber first then .malformed
        else partOutcome (RangeSpec.part length (.bounded (decimalNumber first) (decimalNumber last)))) := by
  rw [resolveInterval, if_neg hlast.1, parseNumber_of_isDigits hfirst, parseNumber_of_isDigits hlast]
  simp only [digitsExceed_iff hfirst hlast, ne_eq, hlast.1, not_false_eq_true, true_and, if_false]
  generalize decimalNumber first = start
  generalize decimalNumber last = stop
  by_cases hexceed : stop < start
  · rw [if_pos hexceed, if_pos hexceed]
  · rw [if_neg hexceed, if_neg hexceed, RangeSpec.part]
    by_cases hin : start < length
    · have hstart : min start (2 ^ 64 - 1) = start := by
        omega
      have hstop : min (min stop (2 ^ 64 - 1)) (length - 1) = min stop (length - 1) := by
        omega
      -- A position that the clamping leaves in front of the end loses nothing.
      have hcount : min stop (length - 1) - start + 1 = min (stop + 1) length - start := by omega
      rw [hstart, if_neg (Nat.not_le.mpr hin), if_pos hin, checkedSub_of_le (by omega)]
      simp only [Option.bind_eq_bind, Option.bind_some, hstop]
      rw [checkedSub_of_le (by omega)]
      simp only [Option.bind_some]
      rw [checkedAdd_of_lt (by omega)]
      simp only [Option.bind_some, partOutcome, hcount]
    · rw [if_pos (by omega), if_neg hin]
      rfl

theorem resolveInterval_nil (hfirst : IsDigits first) :
    resolveInterval length first [] =
      some (partOutcome (RangeSpec.part length (.openEnded (decimalNumber first)))) := by
  rw [resolveInterval, parseNumber_of_isDigits hfirst, RangeSpec.part]
  simp only [ne_eq, not_true_eq_false, false_and, if_true, if_false]
  generalize decimalNumber first = start
  by_cases hin : start < length
  · have hstart : min start (2 ^ 64 - 1) = start := by
      omega
    rw [hstart, if_neg (Nat.not_le.mpr hin), if_pos hin, checkedSub_of_le (by omega)]
    simp only [Option.bind_eq_bind, Option.bind_some]
    rw [checkedSub_of_le (by omega)]
    simp only [Option.bind_some]
    rw [checkedAdd_of_lt (by omega)]
    simp only [Option.bind_some, partOutcome]
    congr 2
    omega
  · rw [if_pos (by omega), if_neg hin]
    rfl

/-- **A spec of the grammar** is resolved to the part that it asks for. -/
theorem resolveSpec_of_spelled (h : spec.Spelled text) :
    resolveSpec length text = some (partOutcome (spec.part length)) := by
  cases h with
  | bounded hfirst hlast hle =>
    rw [resolveSpec_append (hyphen_not_mem hfirst.2) (hyphen_not_mem hlast.2), if_neg hfirst.1,
      resolveInterval_of_isDigits hlength hfirst hlast, if_neg (Nat.not_lt.mpr hle)]
  | openEnded hfirst =>
    rw [resolveSpec_append (hyphen_not_mem hfirst.2) List.not_mem_nil, if_neg hfirst.1,
      resolveInterval_nil hlength hfirst]
  | suffix hlast =>
    rw [← List.nil_append (hyphen :: _), resolveSpec_append List.not_mem_nil (hyphen_not_mem hlast.2), if_pos rfl,
      resolveSuffix_of_isDigits hlength hlast]

/-- **Any other text** is malformed. -/
theorem resolveSpec_of_not_spelled (h : ∀ spec : RangeSpec, ¬spec.Spelled text) :
    resolveSpec length text = some .malformed := by
  by_cases hmem : hyphen ∈ text
  · obtain ⟨first, last, rfl, hfirst⟩ := List.eq_append_cons_of_mem hmem
    by_cases hlast : hyphen ∈ last
    · rw [resolveSpec]
      simp only [Library.dropWhile_append_stop (ne_hyphen_of_mem hfirst) eq_hyphen_of_head?, if_pos hlast]
    · rw [resolveSpec_append hfirst hlast]
      by_cases hnil : first = []
      · subst hnil
        have hnot : ¬IsDigits last := fun hdigits => h _ (.suffix hdigits)
        rw [if_pos rfl, resolveSuffix, parseNumber_of_not_isDigits hnot]
      · rw [if_neg hnil]
        by_cases hdigits : IsDigits first
        · by_cases hlastNil : last = []
          · subst hlastNil
            exact absurd (.openEnded hdigits) (h _)
          · by_cases hlastDigits : IsDigits last
            · have hexceed : decimalNumber last < decimalNumber first :=
                Nat.lt_of_not_le fun hle => h _ (.bounded hdigits hlastDigits hle)
              rw [resolveInterval_of_isDigits hlength hdigits hlastDigits, if_pos hexceed]
            · rw [resolveInterval, if_neg hlastNil, parseNumber_of_not_isDigits hlastDigits]
              cases parseNumber first <;> rfl
        · rw [resolveInterval, parseNumber_of_not_isDigits hdigits]
  · have hdrop : text.dropWhile (· != hyphen) = [] :=
      List.dropWhile_eq_nil_iff.mpr (ne_hyphen_of_mem hmem)
    rw [resolveSpec, hdrop]

end

end

/-! ## Merging -/

section

variable {limit : Nat} {state : AddRange} {rest ranges kept front : List HttpByteRange} {grown new : Stretch Nat}
  {slot : HttpByteRange} {offset length : Nat}

/-- The ranges end inside a representation of `limit` bytes. -/
def Inside (limit : Nat) (ranges : List HttpByteRange) : Prop :=
  ∀ range ∈ ranges, range.offset + range.length ≤ limit

/-- The state of the loop of `add_range` with the union `grown`. -/
def addRangeState (grown : Stretch Nat) (target : Option Nat) (kept : List HttpByteRange) : AddRange :=
  ⟨grown.start, grown.stop, target, kept⟩

theorem addRangeStep_eq {target : Option Nat} {current : HttpByteRange} (hlimit : limit < 2 ^ 64)
    (hcurrent : current.offset + current.length ≤ limit) :
    addRangeStep (addRangeState grown target kept) current =
      some (if current.stretch.Touches grown then
        addRangeState (grown.hull current.stretch) (some (target.getD kept.length))
          (if target.isNone then kept ++ [current] else kept)
      else addRangeState grown target (kept ++ [current])) := by
  rw [addRangeStep, checkedAdd_of_lt (by omega)]
  exact (apply_ite some _ _ _).symm

/-- Behind the first range that was merged, the loop gathers. -/
theorem foldlM_addRangeStep (grown : Stretch Nat) (kept : List HttpByteRange) (target : Nat) (hlimit : limit < 2 ^ 64)
    (hrest : Inside limit rest) :
    ∃ kept', kept'.map stretch = (gather grown (rest.map stretch)).2 ∧
      rest.foldlM addRangeStep (addRangeState grown (some target) kept) =
        some (addRangeState (gather grown (rest.map stretch)).1 (some target) (kept ++ kept')) := by
  induction rest generalizing grown kept with
  | nil => exact ⟨[], rfl, by rw [List.append_nil]; rfl⟩
  | cons current rest ih =>
    have hrest' : Inside limit rest := fun range hmem => hrest range (List.mem_cons_of_mem _ hmem)
    rw [List.foldlM_cons, addRangeStep_eq hlimit (hrest current List.mem_cons_self), List.map_cons, gather]
    by_cases htouch : current.stretch.Touches grown
    · simp only [if_pos htouch, Option.bind_eq_bind, Option.bind_some, Option.getD_some, Option.isNone_some,
        Bool.false_eq_true, if_false]
      exact ih _ _ hrest'
    · simp only [if_neg htouch, Option.bind_eq_bind, Option.bind_some]
      obtain ⟨kept', hkept, hfold⟩ := ih grown (kept ++ [current]) hrest'
      refine ⟨current :: kept', by rw [List.map_cons, hkept], ?_⟩
      rw [hfold, List.append_assoc, List.singleton_append]

/-- The range of a stretch. -/
def rangeOf (stretch : Stretch Nat) : HttpByteRange := ⟨stretch.start, stretch.stop - stretch.start⟩

section

variable (h : grown.start ≤ grown.stop)
include h

theorem stretch_rangeOf : (rangeOf grown).stretch = grown := by
  cases grown
  simp only [rangeOf, stretch, Stretch.mk.injEq, true_and]
  simp only at h
  omega

/-- The end of `add_range` puts the union into the slot kept for it. -/
theorem addRangeFinish_slot {kept' : List HttpByteRange}
    (hroom : front.length < capacity) :
    addRangeFinish (addRangeState grown (some front.length) (front ++ slot :: kept')) =
      some (front ++ rangeOf grown :: kept') := by
  simp only [addRangeFinish, addRangeState, checkedSub_of_le h, Option.bind_eq_bind, Option.bind_some,
    Option.getD_some, if_pos hroom, Option.isNone_some, Bool.false_eq_true, if_false]
  rw [List.set_append_right _ _ (Nat.le_refl _), Nat.sub_self, List.set_cons_zero, rangeOf]

theorem addRangeFinish_last (hroom : front.length < capacity) :
    addRangeFinish (addRangeState grown none front) = some (front ++ [rangeOf grown]) := by
  simp only [addRangeFinish, addRangeState, checkedSub_of_le h, Option.bind_eq_bind, Option.bind_some,
    Option.getD_none, if_pos hroom, Option.isNone_none, if_true]
  rw [List.set_append_right _ _ (Nat.le_refl _), Nat.sub_self, List.set_cons_zero, rangeOf]

end

theorem start_le_gather (stretches : List (Stretch Nat)) (h : grown.start ≤ grown.stop) :
    (gather grown stretches).1.start ≤ (gather grown stretches).1.stop := by
  induction stretches generalizing grown with
  | nil => exact h
  | cons a stretches ih =>
    rw [gather]
    split
    · exact ih ((min_le_left _ _).trans (h.trans (le_max_left _ _)))
    · exact ih h

/-- The loop with its end absorbs the new part. -/
theorem foldlM_finish (new : Stretch Nat) (kept : List HttpByteRange) (hlimit : limit < 2 ^ 64)
    (hrest : Inside limit rest) (hnew : new.start ≤ new.stop) (hroom : kept.length + rest.length < capacity) :
    ∃ ranges', ranges'.map stretch = absorb new (rest.map stretch) ∧
      (rest.foldlM addRangeStep (addRangeState new none kept) >>= addRangeFinish) = some (kept ++ ranges') := by
  induction rest generalizing kept with
  | nil =>
    refine ⟨[rangeOf new], ?_, addRangeFinish_last hnew (by simpa using hroom)⟩
    rw [List.map_singleton, stretch_rangeOf hnew]
    rfl
  | cons current rest ih =>
    have hrest' : Inside limit rest := fun range hmem => hrest range (List.mem_cons_of_mem _ hmem)
    rw [List.length_cons] at hroom
    rw [List.foldlM_cons, addRangeStep_eq hlimit (hrest current List.mem_cons_self), List.map_cons, absorb]
    by_cases htouch : current.stretch.Touches new
    · have hhull : (new.hull current.stretch).start ≤ (new.hull current.stretch).stop :=
        (min_le_left _ _).trans (hnew.trans (le_max_left _ _))
      simp only [if_pos htouch, Option.bind_eq_bind, Option.bind_some, Option.getD_none, Option.isNone_none, if_true]
      obtain ⟨kept', hkept, hfold⟩ :=
        foldlM_addRangeStep (new.hull current.stretch) (kept ++ [current]) kept.length hlimit hrest'
      have hle := start_le_gather (rest.map stretch) hhull
      refine ⟨rangeOf (gather (new.hull current.stretch) (rest.map stretch)).1 :: kept', ?_, ?_⟩
      · rw [List.map_cons, hkept, stretch_rangeOf hle]
      · rw [hfold, Option.bind_some, List.append_assoc, List.singleton_append, addRangeFinish_slot hle (by omega)]
    · simp only [if_neg htouch, Option.bind_eq_bind, Option.bind_some]
      obtain ⟨ranges', hranges, hfold⟩ := ih (kept ++ [current]) hrest'
        (by rw [List.length_append, List.length_singleton]; omega)
      refine ⟨current :: ranges', by rw [List.map_cons, hranges], ?_⟩
      rw [Option.bind_eq_bind] at hfold
      rw [hfold, List.append_assoc, List.singleton_append]

/-- **`add_range`** absorbs the new part, and no arithmetic wraps. -/
theorem addRange_eq (offset length : Nat) (hlimit : limit < 2 ^ 64) (hranges : Inside limit ranges)
    (hnew : offset + length ≤ limit) (hroom : ranges.length < capacity) :
    ∃ ranges', addRange ranges offset length = some ranges' ∧
      ranges'.map stretch = absorb ⟨offset, offset + length⟩ (ranges.map stretch) := by
  obtain ⟨ranges', hmap, hfold⟩ := foldlM_finish ⟨offset, offset + length⟩ [] hlimit hranges
    (Nat.le_add_right _ _) (by simpa using hroom)
  refine ⟨ranges', ?_, hmap⟩
  rw [addRange, checkedAdd_of_lt (by omega)]
  exact hfold

end

/-! ## The whole set -/

/-- What the loop over the members keeps: the ranges are the coalesced parts of the specs read so far. -/
structure Resolving (length : Nat) (parts : List (Stretch Nat)) (ranges : List HttpByteRange) : Prop where
  coalesced : Coalesced parts (ranges.map stretch)
  parts_nonempty : ∀ part ∈ parts, part.Nonempty
  parts_inside : ∀ part ∈ parts, part.stop ≤ length
  room : ranges.length ≤ capacity

/-- The parts so far, with those of some of the specs, make as many ranges as fit, and another spec follows. -/
def Overfull (length : Nat) (parts : List (Stretch Nat)) (specs : List RangeSpec) : Prop :=
  ∃ k < specs.length, ∃ stretches, Coalesced (parts ++ (specs.take k).filterMap (·.part length)) stretches ∧
    stretches.length = capacity

section

variable {length emptyMembers : Nat} {parts : List (Stretch Nat)} {ranges : List HttpByteRange} {spec : RangeSpec}
  {specs : List RangeSpec} {member : Bytes} {members : List Bytes} {saw : Bool}

theorem Resolving.inside (h : Resolving length parts ranges) : Inside length ranges := fun _ hmem =>
  h.coalesced.stop_le h.parts_inside (List.mem_map_of_mem hmem)

theorem Resolving.nil (length : Nat) : Resolving length [] [] :=
  ⟨Coalesced.nil, fun _ h => absurd h List.not_mem_nil, fun _ h => absurd h List.not_mem_nil, Nat.zero_le _⟩

theorem overfull_of_full (h : Resolving length parts ranges) (hfull : ranges.length = capacity) :
    Overfull length parts (spec :: specs) :=
  ⟨0, Nat.succ_pos _, ranges.map stretch, by simpa using h.coalesced, by simpa using hfull⟩

theorem overfull_cons_iff (h : Resolving length parts ranges) (hfull : ranges.length ≠ capacity) :
    Overfull length parts (spec :: specs) ↔ Overfull length (parts ++ (spec.part length).toList) specs := by
  have htake : ∀ k, parts ++ ((spec :: specs).take (k + 1)).filterMap (·.part length) =
      parts ++ (spec.part length).toList ++ (specs.take k).filterMap (·.part length) := by
    intro k
    rw [List.take_succ_cons, List.append_assoc]
    cases hpart : spec.part length with
    | none => rw [List.filterMap_cons_none hpart]; rfl
    | some part => rw [List.filterMap_cons_some hpart]; rfl
  constructor
  · rintro ⟨k, hk, stretches, hcoalesced, hlength⟩
    cases k with
    | zero =>
      have hsame := h.coalesced.unique (by simpa using hcoalesced)
      rw [← hsame, List.length_map] at hlength
      exact absurd hlength hfull
    | succ k => exact ⟨k, Nat.lt_of_succ_lt_succ hk, stretches, htake k ▸ hcoalesced, hlength⟩
  · rintro ⟨k, hk, stretches, hcoalesced, hlength⟩
    exact ⟨k + 1, Nat.succ_lt_succ hk, stretches, (htake k).symm ▸ hcoalesced, hlength⟩

/-- **One spec**: the loop goes on with the ranges of one part more. -/
theorem Resolving.spec_step (emptyMembers : Nat) (saw : Bool) (members : List Bytes) (hlength : length < 2 ^ 64)
    (hpos : 0 < length) (h : Resolving length parts ranges) (hfull : ranges.length ≠ capacity)
    (hspec : spec.Spelled (httpTrimOws member)) (hne : httpTrimOws member ≠ []) :
    ∃ ranges', Resolving length (parts ++ (spec.part length).toList) ranges' ∧
      resolveMembers length ranges emptyMembers saw (member :: members) =
        resolveMembers length ranges' emptyMembers true members := by
  have hresolve := resolveSpec_of_spelled hlength hspec
  cases hpart : spec.part length with
  | none =>
    refine ⟨ranges, by rwa [Option.toList_none, List.append_nil], ?_⟩
    rw [hpart] at hresolve
    simp only [resolveMembers, if_neg hne, if_neg hfull, hresolve, partOutcome]
  | some part =>
    obtain ⟨hne', hstop⟩ := hspec.part_bounds hpos hpart
    have hpartStretch : (⟨part.start, part.start + (part.stop - part.start)⟩ : Stretch Nat) = part :=
      stretch_rangeOf hne'.le
    have hroom : ranges.length < capacity := lt_of_le_of_ne h.room hfull
    obtain ⟨ranges', hadd, hmap⟩ :=
      addRange_eq part.start (part.stop - part.start) hlength h.inside (by omega) hroom
    rw [hpartStretch] at hmap
    refine ⟨ranges', ⟨hmap ▸ h.coalesced.absorb h.parts_nonempty hne', ?_, ?_, ?_⟩, ?_⟩
    · intro p hp
      rcases List.mem_append.mp hp with hp | hp
      · exact h.parts_nonempty p hp
      · rw [List.mem_singleton.mp hp]
        exact hne'
    · intro p hp
      rcases List.mem_append.mp hp with hp | hp
      · exact h.parts_inside p hp
      · rw [List.mem_singleton.mp hp]
        exact hstop
    · have hle : (absorb part (ranges.map stretch)).length ≤ _ := length_absorb_le
      rw [← hmap, List.length_map, List.length_map] at hle
      omega
    · rw [hpart] at hresolve
      simp only [resolveMembers, if_neg hne, if_neg hfull, hresolve, partOutcome, hadd]

theorem count_nil_cons (hne : httpTrimOws member ≠ []) :
    (trimmed (member :: members)).count [] = (trimmed members).count [] :=
  List.count_cons_of_ne hne

theorem filter_cons_spec (hne : httpTrimOws member ≠ []) :
    ((trimmed (member :: members)).filter (· ≠ [])) = httpTrimOws member :: (trimmed members).filter (· ≠ []) :=
  List.filter_cons_of_pos (decide_eq_true hne)

theorem filter_cons_empty (hnil : httpTrimOws member = []) :
    ((trimmed (member :: members)).filter (· ≠ [])) = (trimmed members).filter (· ≠ []) :=
  List.filter_cons_of_neg (by simpa using hnil)

theorem count_nil_cons_empty (hnil : httpTrimOws member = []) :
    (trimmed (member :: members)).count [] = (trimmed members).count [] + 1 := by
  rw [trimmed, List.map_cons, hnil, List.count_cons_self]

/-- **A set of the grammar**: ignored if it is beyond the capacity, else resolved to the coalesced parts. -/
theorem resolveMembers_of_spelled (hlength : length < 2 ^ 64) (hpos : 0 < length) (h : Resolving length parts ranges)
    (hspecs : List.Forall₂ RangeSpec.Spelled specs ((trimmed members).filter (· ≠ [])))
    (hempty : emptyMembers + (trimmed members).count [] ≤ 32) (hsaw : saw = true ∨ specs ≠ []) :
    ∃ result, resolveMembers length ranges emptyMembers saw members = some result ∧
      (Overfull length parts specs → result = {}) ∧
      (¬Overfull length parts specs → result.ignored = false ∧
        Resolving length (parts ++ specs.filterMap (·.part length)) result.ranges) := by
  induction members generalizing parts ranges specs emptyMembers saw with
  | nil =>
    obtain rfl : specs = [] := List.forall₂_nil_right_iff.mp hspecs
    have hsaw : saw = true := hsaw.resolve_right fun hne => hne rfl
    refine ⟨{ ranges, ignored := false }, by simp [resolveMembers, hsaw], ?_, fun _ => ⟨rfl, ?_⟩⟩
    · exact fun ⟨_, hk, _⟩ => absurd hk (Nat.not_lt_zero _)
    · rwa [List.filterMap_nil, List.append_nil]
  | cons member members ih =>
    by_cases hnil : httpTrimOws member = []
    · rw [filter_cons_empty hnil] at hspecs
      rw [count_nil_cons_empty hnil] at hempty
      have hstep : resolveMembers length ranges emptyMembers saw (member :: members) =
          resolveMembers length ranges (emptyMembers + 1) saw members := by
        simp only [resolveMembers, if_pos hnil]
        rw [if_neg (by omega)]
      rw [hstep]
      exact ih h hspecs (by omega) hsaw
    · rw [filter_cons_spec hnil] at hspecs
      rw [count_nil_cons hnil] at hempty
      cases specs with
      | nil => cases hspecs
      | cons spec specs =>
        obtain ⟨hspec, hspecs⟩ := List.forall₂_cons.mp hspecs
        by_cases hfull : ranges.length = capacity
        · refine ⟨{}, by simp only [resolveMembers, if_neg hnil, if_pos hfull], fun _ => rfl, fun hnot => ?_⟩
          exact absurd (overfull_of_full h hfull) hnot
        · obtain ⟨ranges', h', hstep⟩ :=
            h.spec_step emptyMembers saw members hlength hpos hfull hspec hnil
          obtain ⟨result, hresult, hover, hfits⟩ := ih h' hspecs hempty (.inl rfl)
          have hparts : parts ++ (spec :: specs).filterMap (·.part length) =
              parts ++ (spec.part length).toList ++ specs.filterMap (·.part length) := by
            rw [List.append_assoc, List.filterMap_cons]
            cases spec.part length <;> rfl
          rw [hstep, overfull_cons_iff h hfull, hparts]
          exact ⟨result, hresult, hover, hfits⟩

/-- **Any other set** is ignored as a whole. -/
theorem resolveMembers_of_malformed (hlength : length < 2 ^ 64) (hpos : 0 < length) (h : Resolving length parts ranges)
    (hempty : emptyMembers ≤ 32) (hsaw : saw = false → ranges = [])
    (hnot : ∀ specs, List.Forall₂ RangeSpec.Spelled specs ((trimmed members).filter (· ≠ [])) →
      emptyMembers + (trimmed members).count [] ≤ 32 → saw = false ∧ specs = []) :
    resolveMembers length ranges emptyMembers saw members = some {} := by
  induction members generalizing parts ranges emptyMembers saw with
  | nil =>
    obtain ⟨hsawFalse, -⟩ := hnot [] List.Forall₂.nil hempty
    simp only [resolveMembers, hsaw hsawFalse, hsawFalse, and_self, if_true]
  | cons member members ih =>
    by_cases hnil : httpTrimOws member = []
    · simp only [resolveMembers, if_pos hnil]
      split
      · rfl
      · refine ih h (by omega) hsaw fun specs hspecs hcount => hnot specs ?_ ?_
        · rwa [filter_cons_empty hnil]
        · rw [count_nil_cons_empty hnil]
          omega
    · rw [count_nil_cons hnil, filter_cons_spec hnil] at hnot
      by_cases hfull : ranges.length = capacity
      · simp only [resolveMembers, if_neg hnil, if_pos hfull]
      · by_cases hspec : ∃ spec : RangeSpec, spec.Spelled (httpTrimOws member)
        · obtain ⟨spec, hspec⟩ := hspec
          obtain ⟨ranges', h', hstep⟩ :=
            h.spec_step emptyMembers saw members hlength hpos hfull hspec hnil
          rw [hstep]
          refine ih h' hempty (fun hfalse => absurd hfalse (by decide)) fun specs hspecs hcount => ?_
          exact absurd (hnot (spec :: specs) (.cons hspec hspecs) hcount).2 (List.cons_ne_nil _ _)
        · have hmalformed := resolveSpec_of_not_spelled hlength fun spec hspelled => hspec ⟨spec, hspelled⟩
          simp only [resolveMembers, if_neg hnil, if_neg hfull, hmalformed]

end

/-! ## The field value -/

section

variable {length : Nat} {value : Bytes} {specs : List RangeSpec}

theorem length_of_equalsIgnoreCase {unit : Bytes} (h : httpAsciiEqualsIgnoreCase unit (lit "bytes") = true) :
    unit.length = 5 := by
  have := congrArg List.length (beq_iff_eq.mp h)
  rwa [List.length_map, List.length_map] at this

/-- The unit and the sign in front of a set. -/
theorem resolve_of_unit {unit set : Bytes} (hvalue : httpTrimOws value = unit ++ 0x3d :: set)
    (hunit : httpAsciiEqualsIgnoreCase unit (lit "bytes") = true) (hpos : 0 < length) :
    resolveHttpByteRangeSet value length =
      if httpTrimOws set = [] then some {} else resolveMembers length [] 0 false ((httpTrimOws set).splitOn comma) := by
  have hfive := length_of_equalsIgnoreCase hunit
  have hlit : (lit "bytes").length = 5 := rfl
  have hget : (unit ++ 0x3d :: set)[5]? = some 0x3d := by
    rw [List.getElem?_append_right (by omega), hfive]
    rfl
  have htake : (unit ++ 0x3d :: set).take 5 = unit := by
    rw [← hfive, List.take_left]
  have hdrop : (unit ++ 0x3d :: set).drop 6 = set := by
    rw [List.drop_append, List.drop_eq_nil_of_le (by omega), hfive]
    rfl
  rw [resolveHttpByteRangeSet]
  simp only [hvalue, hlit, hget, htake, hdrop, hunit]
  rw [if_neg (by simp [hfive]), if_neg (by omega)]

theorem resolve_of_not_unit (h : ∀ unit set, httpTrimOws value = unit ++ 0x3d :: set →
    httpAsciiEqualsIgnoreCase unit (lit "bytes") = false) : resolveHttpByteRangeSet value length = some {} := by
  rw [resolveHttpByteRangeSet]
  simp only
  rw [if_pos]
  by_contra hnot
  rw [not_or, not_or, not_not, Bool.not_eq_false] at hnot
  obtain ⟨-, hsign, hunit⟩ := hnot
  obtain ⟨hlt, hget⟩ := List.getElem?_eq_some_iff.mp hsign
  have hsplit : httpTrimOws value =
      (httpTrimOws value).take (lit "bytes").length ++ 0x3d :: (httpTrimOws value).drop ((lit "bytes").length + 1) := by
    rw [← hget, List.getElem_cons_drop, List.take_append_drop]
  rw [h _ _ hsplit] at hunit
  cases hunit

theorem resolve_zero (value : Bytes) : resolveHttpByteRangeSet value 0 = some {} := by
  rw [resolveHttpByteRangeSet]
  split <;> rfl

theorem splitOn_trimmed_nil {set : Bytes} (h : httpTrimOws set = []) :
    (trimmed ((httpTrimOws set).splitOn comma)).filter (· ≠ []) = [] := by
  rw [h]
  rfl

theorem resolve_of_isRangeSet (hlength : length < 2 ^ 64) (hpos : 0 < length) (h : IsRangeSet value specs) :
    ∃ result, resolveHttpByteRangeSet value length = some result ∧
      (BeyondCapacity length specs → result = {}) ∧
      (¬BeyondCapacity length specs → result.ignored = false ∧
        Resolving length (specs.filterMap (·.part length)) result.ranges) := by
  obtain ⟨unit, set, hvalue, hunit, hne, members, rfl, hcount, hspecs⟩ := h
  have hset : httpTrimOws set ≠ [] := by
    intro hnil
    rw [splitOn_trimmed_nil hnil, List.forall₂_nil_right_iff] at hspecs
    exact hne hspecs
  rw [resolve_of_unit hvalue hunit hpos, if_neg hset]
  exact resolveMembers_of_spelled hlength hpos (Resolving.nil length) hspecs (by omega) (.inr hne)

theorem resolve_of_not_isRangeSet (hlength : length < 2 ^ 64) (h : ∀ specs, ¬IsRangeSet value specs) :
    resolveHttpByteRangeSet value length = some {} := by
  rcases Nat.eq_zero_or_pos length with rfl | hpos
  · exact resolve_zero value
  · by_cases hform : ∃ unit set, httpTrimOws value = unit ++ 0x3d :: set ∧
        httpAsciiEqualsIgnoreCase unit (lit "bytes") = true
    · obtain ⟨unit, set, hvalue, hunit⟩ := hform
      rw [resolve_of_unit hvalue hunit hpos]
      split
      · rfl
      · refine resolveMembers_of_malformed hlength hpos (Resolving.nil length) (Nat.zero_le _) (fun _ => rfl) ?_
        intro specs hspecs hcount
        refine ⟨rfl, ?_⟩
        by_contra hne
        exact h specs ⟨unit, set, hvalue, hunit, hne, _, rfl, by omega, hspecs⟩
    · refine resolve_of_not_unit fun unit set hvalue => ?_
      rw [← Bool.not_eq_true]
      exact fun hunit => hform ⟨unit, set, hvalue, hunit⟩

/-- Specs that ask for nothing make no range. -/
theorem filterMap_part_eq_nil_iff : specs.filterMap (·.part length) = [] ↔ ∀ spec ∈ specs, spec.part length = none :=
  List.filterMap_eq_nil_iff

theorem not_beyondCapacity_of_none (h : ∀ spec ∈ specs, spec.part length = none) : ¬BeyondCapacity length specs := by
  rintro ⟨k, -, stretches, hcoalesced, hlen⟩
  have hnone : (specs.take k).filterMap (·.part length) = [] :=
    filterMap_part_eq_nil_iff.mpr fun spec hmem => h spec (List.mem_of_mem_take hmem)
  rw [hnone] at hcoalesced
  rw [← Coalesced.nil.unique hcoalesced] at hlen
  exact absurd hlen (by decide)

theorem Resolving.ranges_eq_nil_iff {parts : List (Stretch Nat)} {ranges : List HttpByteRange}
    (h : Resolving length parts ranges) : ranges = [] ↔ parts = [] := by
  constructor
  · rintro rfl
    by_contra hne
    obtain ⟨part, hpart⟩ := List.exists_mem_of_ne_nil _ hne
    obtain ⟨a, ha, -⟩ := h.coalesced.exists_within hpart (h.parts_nonempty part hpart)
    cases ha
  · rintro rfl
    exact List.map_eq_nil_iff.mp (h.coalesced.unique Coalesced.nil)

/-- **Byte-range resolution.** Nothing wraps. The value is ignored but when it is a set of the grammar within the
capacity; then the ranges lie inside the representation, and they are the parts that the specs ask for, coalesced. -/
theorem resolve_http_byte_range_set (value : Bytes) (length : UInt64) :
    ∃ result, resolveHttpByteRangeSet value length.toNat = some result ∧
      (result.ignored = false ↔
        length ≠ 0 ∧ ∃ specs, IsRangeSet value specs ∧ ¬BeyondCapacity length.toNat specs) ∧
      (result.ignored = true → result.ranges = []) ∧
      (∀ specs, IsRangeSet value specs → result.ignored = false →
        Coalesced (specs.filterMap (·.part length.toNat)) (result.ranges.map stretch) ∧
        (∀ range ∈ result.ranges, 0 < range.length ∧ range.offset + range.length ≤ length.toNat) ∧
        result.ranges.length ≤ capacity) ∧
      (length ≠ 0 → (result.unsatisfiable = true ↔
        ∃ specs, IsRangeSet value specs ∧ ∀ spec ∈ specs, spec.part length.toNat = none)) := by
  have hlength := length.toNat_lt
  rcases eq_or_ne length 0 with rfl | hne
  · refine ⟨{}, resolve_zero value, ?_⟩
    simp
  have hpos : 0 < length.toNat := Nat.pos_of_ne_zero fun hzero => hne (UInt64.toNat_inj.mp hzero)
  by_cases hset : ∃ specs, IsRangeSet value specs
  · obtain ⟨specs₀, h₀⟩ := hset
    obtain ⟨result, hresult, -, -⟩ := resolve_of_isRangeSet hlength hpos h₀
    have hspecs : ∀ specs, IsRangeSet value specs → (BeyondCapacity length.toNat specs → result = {}) ∧
        (¬BeyondCapacity length.toNat specs → result.ignored = false ∧
          Resolving length.toNat (specs.filterMap (·.part length.toNat)) result.ranges) := by
      intro specs h
      obtain ⟨result', hresult', hspecs⟩ := resolve_of_isRangeSet hlength hpos h
      rw [hresult] at hresult'
      rwa [Option.some.inj hresult']
    have hresolving : ∀ specs, IsRangeSet value specs → result.ignored = false →
        Resolving length.toNat (specs.filterMap (·.part length.toNat)) result.ranges := by
      intro specs h hignored
      refine ((hspecs specs h).2 fun hbeyond => ?_).2
      rw [(hspecs specs h).1 hbeyond] at hignored
      cases hignored
    refine ⟨result, hresult, ⟨?_, ?_⟩, ?_, ?_, fun _ => ⟨?_, ?_⟩⟩
    · intro hignored
      refine ⟨hne, specs₀, h₀, fun hbeyond => ?_⟩
      rw [(hspecs specs₀ h₀).1 hbeyond] at hignored
      cases hignored
    · rintro ⟨-, specs, h, hfits⟩
      exact ((hspecs specs h).2 hfits).1
    · intro hignored
      by_cases hbeyond : BeyondCapacity length.toNat specs₀
      · rw [(hspecs specs₀ h₀).1 hbeyond]
      · rw [((hspecs specs₀ h₀).2 hbeyond).1] at hignored
        cases hignored
    · intro specs h hignored
      have hranges := hresolving specs h hignored
      refine ⟨hranges.coalesced, fun range hmem => ⟨?_, hranges.inside range hmem⟩, hranges.room⟩
      exact Nat.lt_add_right_iff_pos.mp (hranges.coalesced.nonempty _ (List.mem_map_of_mem hmem))
    · intro hunsatisfiable
      simp only [unsatisfiable, Bool.and_eq_true, Bool.not_eq_true', List.isEmpty_iff]
        at hunsatisfiable
      have hranges := hresolving specs₀ h₀ hunsatisfiable.1
      exact ⟨specs₀, h₀, filterMap_part_eq_nil_iff.mp (hranges.ranges_eq_nil_iff.mp hunsatisfiable.2)⟩
    · rintro ⟨specs, h, hnone⟩
      obtain ⟨hignored, hranges⟩ := (hspecs specs h).2 (not_beyondCapacity_of_none hnone)
      have hnil := hranges.ranges_eq_nil_iff.mpr (filterMap_part_eq_nil_iff.mpr hnone)
      simp [unsatisfiable, hignored, hnil]
  · have hnone : ∀ specs, ¬IsRangeSet value specs := fun specs h => hset ⟨specs, h⟩
    refine ⟨{}, resolve_of_not_isRangeSet hlength hnone, ?_⟩
    simp [hnone, unsatisfiable]

end

end Ruvia.Http
