import Ruvia.Web.PatternGrammar

/-!
# `Web.PatternMatch` — matching a pattern

`match_pattern_plan_from`, a greedy search with a budget of steps. The language of a pattern is the product of the
languages of its items. A search reports a match only of a value in the language, and misses one only when it has used
up its budget (`matchAtoms_searches`).
-/

namespace Ruvia.Web.Pattern

open Library

/-! ## The matcher -/

def minCount : Quantifier → Nat
  | .one | .oneOrMore => 1
  | .zeroOrOne | .zeroOrMore => 0

/-- The most that a quantifier can consume. -/
def scanLimit (quantifier : Quantifier) (value : Bytes) : Nat :=
  match quantifier with
  | .one | .zeroOrOne => 1
  | .oneOrMore | .zeroOrMore => value.length

/-- The scan of a quantifier: the bytes it can consume and the budget left, no count when the budget is exhausted. -/
def scanQuantifier (bytes : ByteSet) : Nat → Bytes → Nat → Option Nat × Nat
  | 0, _, budget => (some 0, budget)
  | _, [], budget => (some 0, budget)
  | _ + 1, _ :: _, 0 => (none, 0)
  | limit + 1, byte :: value, budget + 1 =>
    if bytes.contains byte then
      let (count, budget) := scanQuantifier bytes limit value budget
      (count.map (· + 1), budget)
    else (some 0, budget)

/-- The backtracking loop, from the largest count down. -/
def tryCounts (attempt : Nat → Nat → Bool × Nat) (least : Nat) : Nat → Nat → Bool × Nat
  | 0, budget => if 0 < least then (false, budget) else attempt 0 budget
  | count + 1, budget =>
    if count + 1 < least then (false, budget)
    else
      let result := attempt (count + 1) budget
      if result.1 then result else tryCounts attempt least count result.2

/-- The matcher from an atom and a byte on: the verdict and the budget left. -/
def matchAtoms : List Atom → Bytes → Nat → Bool × Nat
  | _, _, 0 => (false, 0)
  | [], value, budget + 1 => (value.isEmpty, budget)
  | atom :: atoms, value, budget + 1 =>
    match scanQuantifier atom.bytes (scanLimit atom.quantifier value) value budget with
    | (none, budget) => (false, budget)
    | (some maxCount, budget) =>
      if maxCount < minCount atom.quantifier then (false, budget)
      else
        tryCounts (fun count budget => matchAtoms atoms (value.drop count) budget) (minCount atom.quantifier) maxCount
          budget

def matchPatternPlanFrom (plan : Plan) (value : Bytes) (atomIndex valueIndex budget : Nat) : Bool × Nat :=
  matchAtoms (plan.atoms.drop atomIndex) (value.drop valueIndex) budget

/-! ## Languages -/

/-- One byte of a set. -/
def oneByte (bytes : Set UInt8) : Language UInt8 := {text | ∃ byte ∈ bytes, text = [byte]}

def quantified (quantifier : Quantifier) (language : Language UInt8) : Language UInt8 :=
  match quantifier with
  | .one => language
  | .zeroOrOne => 1 + language
  | .zeroOrMore => KStar.kstar language
  | .oneOrMore => language * KStar.kstar language

/-- The language that a pattern denotes. -/
def patternLanguage (items : List (Item × Quantifier)) : Language UInt8 :=
  (items.map fun item => quantified item.2 (oneByte item.1.bytes)).prod

/-- The language of the atoms of a plan. -/
def atomsLanguage (atoms : List Atom) : Language UInt8 :=
  (atoms.map fun atom => quantified atom.quantifier (oneByte {byte | atom.bytes.contains byte = true})).prod

section

variable {bytes : Set UInt8} {text value : Bytes} {quantifier : Quantifier} {language : Language UInt8}

theorem mem_kstar_oneByte : text ∈ KStar.kstar (oneByte bytes) ↔ ∀ byte ∈ text, byte ∈ bytes := by
  constructor
  · rintro ⟨chunks, rfl, hchunks⟩ byte hbyte
    obtain ⟨chunk, hchunk, hmem⟩ := List.mem_flatten.mp hbyte
    obtain ⟨single, hsingle, rfl⟩ := hchunks chunk hchunk
    rwa [List.mem_singleton.mp hmem]
  · intro h
    refine ⟨text.map fun byte => [byte], ?_, ?_⟩
    · induction text with
      | nil => rfl
      | cons byte text ih =>
        exact congrArg (byte :: ·) (ih fun b hb => h b (List.mem_cons_of_mem _ hb))
    · intro chunk hchunk
      obtain ⟨byte, hbyte, rfl⟩ := List.mem_map.mp hchunk
      exact ⟨byte, h byte hbyte, rfl⟩

/-- A quantifier bounds the number of the bytes. -/
theorem mem_quantified : text ∈ quantified quantifier (oneByte bytes) ↔
    (∀ byte ∈ text, byte ∈ bytes) ∧ minCount quantifier ≤ text.length ∧ text.length ≤ scanLimit quantifier text := by
  have hone : text ∈ oneByte bytes ↔ (∀ byte ∈ text, byte ∈ bytes) ∧ text.length = 1 := by
    constructor
    · rintro ⟨byte, hbyte, rfl⟩
      exact ⟨fun b hb => by rwa [List.mem_singleton.mp hb], rfl⟩
    · rintro ⟨hall, hlength⟩
      obtain ⟨byte, rfl⟩ := List.length_eq_one_iff.mp hlength
      exact ⟨byte, hall byte (List.mem_singleton.mpr rfl), rfl⟩
  cases quantifier with
  | one =>
    rw [quantified, hone, minCount, scanLimit]
    exact and_congr_right fun _ => ⟨fun h => ⟨h.ge, h.le⟩, fun h => Nat.le_antisymm h.2 h.1⟩
  | zeroOrOne =>
    rw [quantified, Language.mem_add, Language.mem_one, hone, minCount, scanLimit]
    constructor
    · rintro (rfl | ⟨hall, hlength⟩)
      · exact ⟨fun b hb => absurd hb List.not_mem_nil, Nat.zero_le _, Nat.zero_le _⟩
      · exact ⟨hall, Nat.zero_le _, hlength.le⟩
    · rintro ⟨hall, -, hlength⟩
      rcases Nat.le_one_iff_eq_zero_or_eq_one.mp hlength with hzero | hone
      · exact Or.inl (List.eq_nil_of_length_eq_zero hzero)
      · exact Or.inr ⟨hall, hone⟩
  | zeroOrMore =>
    rw [quantified, mem_kstar_oneByte, minCount, scanLimit]
    exact ⟨fun h => ⟨h, Nat.zero_le _, Nat.le_refl _⟩, fun h => h.1⟩
  | oneOrMore =>
    rw [quantified, Language.mem_mul, minCount, scanLimit]
    constructor
    · rintro ⟨first, ⟨byte, hbyte, rfl⟩, rest, hrest, rfl⟩
      rw [mem_kstar_oneByte] at hrest
      refine ⟨?_, Nat.le_add_left 1 _, Nat.le_refl _⟩
      intro b hb
      rcases List.mem_cons.mp hb with rfl | hb
      · exact hbyte
      · exact hrest b hb
    · rintro ⟨hall, hlength, -⟩
      obtain ⟨byte, rest, rfl⟩ := List.exists_cons_of_length_pos hlength
      exact ⟨[byte], ⟨byte, hall byte (List.mem_cons_self ..), rfl⟩, rest,
        mem_kstar_oneByte.mpr fun b hb => hall b (List.mem_cons_of_mem _ hb), rfl⟩

end

/-! ## The search -/

section

variable {set : ByteSet} {value : Bytes} {limit budget least count : Nat} {language : Language UInt8}

/-- How many bytes a quantifier can consume. -/
def runLength (set : ByteSet) (limit : Nat) (value : Bytes) : Nat := ((value.take limit).takeWhile set.contains).length

/-- A scan counts the run or exhausts the budget. -/
theorem scanQuantifier_cases (set : ByteSet) (limit : Nat) (value : Bytes) (budget : Nat) :
    (∃ left ≤ budget, scanQuantifier set limit value budget = (some (runLength set limit value), left)) ∨
      scanQuantifier set limit value budget = (none, 0) := by
  fun_induction scanQuantifier set limit value budget with
  | case1 | case2 => exact Or.inl ⟨_, Nat.le_refl _, by simp [runLength]⟩
  | case3 => exact Or.inr rfl
  | case4 limit byte value budget hcontains count left heq ih =>
    rw [heq] at ih
    rcases ih with ⟨left', hle, hpair⟩ | hpair
    · obtain ⟨rfl, rfl⟩ := Prod.mk.inj hpair
      refine Or.inl ⟨left, by omega, ?_⟩
      simp [runLength, hcontains]
    · obtain ⟨rfl, rfl⟩ := Prod.mk.inj hpair
      exact Or.inr rfl
  | case5 limit byte value budget hcontains =>
    exact Or.inl ⟨budget, Nat.le_succ _, by simp [runLength, hcontains]⟩

/-- A search of a property: a hit is one, and with budget left a miss is none. -/
structure Searches (budget : Nat) (result : Bool × Nat) (property : Prop) : Prop where
  left : result.2 ≤ budget
  sound : result.1 = true → property
  complete : result.2 ≠ 0 → property → result.1 = true

theorem Searches.miss {property : Prop} {left : Nat} (hle : left ≤ budget) (h : ¬property) :
    Searches budget (false, left) property :=
  ⟨hle, fun hhit => absurd hhit Bool.false_ne_true, fun _ hproperty => absurd hproperty h⟩

theorem Searches.exhausted {property : Prop} : Searches budget (false, 0) property :=
  ⟨Nat.zero_le _, fun hhit => absurd hhit Bool.false_ne_true, fun hleft => absurd rfl hleft⟩

/-- The loop tries every count from the largest down. -/
theorem tryCounts_searches {attempt : Nat → Nat → Bool × Nat} {property : Nat → Prop}
    (hattempt : ∀ count budget, Searches budget (attempt count budget) (property count)) (least : Nat) :
    ∀ count budget, Searches budget (tryCounts attempt least count budget)
      (∃ n, least ≤ n ∧ n ≤ count ∧ property n) := by
  intro count
  induction count with
  | zero =>
    intro budget
    rw [tryCounts]
    by_cases hless : 0 < least
    · rw [if_pos hless]
      apply Searches.miss (Nat.le_refl _)
      rintro ⟨n, hleast, hn, -⟩
      omega
    · have htry := hattempt 0 budget
      rw [if_neg hless]
      refine ⟨htry.left, fun hhit => ⟨0, by omega, Nat.le_refl _, htry.sound hhit⟩, ?_⟩
      rintro hleft ⟨n, -, hn, hproperty⟩
      obtain rfl : n = 0 := Nat.le_zero.mp hn
      exact htry.complete hleft hproperty
  | succ count ih =>
    intro budget
    rw [tryCounts]
    by_cases hless : count + 1 < least
    · rw [if_pos hless]
      apply Searches.miss (Nat.le_refl _)
      rintro ⟨n, hleast, hn, -⟩
      omega
    · have htry := hattempt (count + 1) budget
      have hrest := ih (attempt (count + 1) budget).2
      rw [if_neg hless]
      by_cases hhit : (attempt (count + 1) budget).1 = true
      · simp only [if_pos hhit]
        exact ⟨htry.left, fun _ => ⟨count + 1, by omega, Nat.le_refl _, htry.sound hhit⟩, fun _ _ => hhit⟩
      · simp only [if_neg hhit]
        refine ⟨Nat.le_trans hrest.left htry.left, ?_, ?_⟩
        · intro hlater
          obtain ⟨n, hleast, hn, hproperty⟩ := hrest.sound hlater
          exact ⟨n, hleast, Nat.le_succ_of_le hn, hproperty⟩
        · rintro hleft ⟨n, hleast, hn, hproperty⟩
          rcases Nat.lt_or_eq_of_le hn with hlt | rfl
          · exact hrest.complete hleft ⟨n, hleast, Nat.le_of_lt_succ hlt, hproperty⟩
          · -- With budget left at the end there was budget left behind this attempt.
            have hbehind : (attempt (count + 1) budget).2 ≠ 0 := by
              have := hrest.left
              omega
            exact absurd (htry.complete hbehind hproperty) hhit

/-- A run may be cut anywhere. -/
theorem le_runLength_iff : count ≤ runLength set limit value ↔
    count ≤ limit ∧ count ≤ value.length ∧ ∀ byte ∈ value.take count, set.contains byte = true := by
  rw [runLength]
  induction value generalizing limit count with
  | nil =>
    rw [List.take_nil, List.takeWhile_nil, List.length_nil, Nat.le_zero]
    exact ⟨fun h => by simp [h], fun h => h.2.1⟩
  | cons byte value ih =>
    cases limit with
    | zero =>
      exact ⟨fun h => ⟨h, Nat.le_trans h (Nat.zero_le _), by rw [Nat.le_zero.mp h]; simp⟩, fun h => h.1⟩
    | succ limit =>
      cases count with
      | zero => simp
      | succ count =>
        rw [List.take_succ_cons, List.take_succ_cons, List.length_cons, List.forall_mem_cons]
        cases hbyte : set.contains byte with
        | true =>
          rw [List.takeWhile_cons_of_pos hbyte, List.length_cons, Nat.succ_le_succ_iff, Nat.succ_le_succ_iff,
            Nat.succ_le_succ_iff, ih]
          simp
        | false =>
          rw [List.takeWhile_cons_of_neg (by rw [hbyte]; exact Bool.false_ne_true)]
          simp

/-- **A product begins with a run** of the quantifier's bytes. -/
theorem mem_quantified_mul {quantifier : Quantifier} :
    value ∈ quantified quantifier (oneByte {byte | set.contains byte = true}) * language ↔
      ∃ n, minCount quantifier ≤ n ∧ n ≤ runLength set (scanLimit quantifier value) value ∧
        value.drop n ∈ language := by
  constructor
  · rintro ⟨text, htext, rest, hrest, rfl⟩
    obtain ⟨hall, hleast, hmost⟩ := mem_quantified.mp htext
    refine ⟨text.length, hleast, le_runLength_iff.mpr ⟨?_, by simp, ?_⟩, ?_⟩
    · cases quantifier with
      | one | zeroOrOne => exact hmost
      | zeroOrMore | oneOrMore => simp [scanLimit]
    · rw [List.take_left]
      exact hall
    · rwa [List.drop_left]
  · rintro ⟨n, hleast, hrun, hrest⟩
    obtain ⟨hlimit, hlength, hall⟩ := le_runLength_iff.mp hrun
    refine ⟨value.take n, mem_quantified.mpr ⟨hall, ?_, ?_⟩, value.drop n, hrest, List.take_append_drop n value⟩
    · rwa [List.length_take_of_le hlength]
    · rw [List.length_take_of_le hlength]
      cases quantifier with
      | one | zeroOrOne => exact hlimit
      | zeroOrMore | oneOrMore => simp [scanLimit, hlength]

/-- **The matcher searches the language of the atoms.** -/
theorem matchAtoms_searches (atoms : List Atom) :
    ∀ value budget, Searches budget (matchAtoms atoms value budget) (value ∈ atomsLanguage atoms) := by
  induction atoms with
  | nil =>
    intro value budget
    cases budget with
    | zero => exact Searches.exhausted
    | succ budget =>
      have hiff : value.isEmpty = true ↔ value ∈ atomsLanguage [] := by
        rw [List.isEmpty_iff, atomsLanguage, List.map_nil, List.prod_nil, Language.mem_one]
      exact ⟨Nat.le_succ _, hiff.mp, fun _ => hiff.mpr⟩
  | cons atom atoms ih =>
    intro value budget
    cases budget with
    | zero => exact Searches.exhausted
    | succ budget =>
      have hlanguage : value ∈ atomsLanguage (atom :: atoms) ↔
          ∃ n, minCount atom.quantifier ≤ n ∧ n ≤ runLength atom.bytes (scanLimit atom.quantifier value) value ∧
            value.drop n ∈ atomsLanguage atoms := mem_quantified_mul
      rw [matchAtoms, hlanguage]
      rcases scanQuantifier_cases atom.bytes (scanLimit atom.quantifier value) value budget with
        ⟨left, hle, hscan⟩ | hscan
      · rw [hscan]
        by_cases hless : runLength atom.bytes (scanLimit atom.quantifier value) value < minCount atom.quantifier
        · simp only [if_pos hless]
          apply Searches.miss (Nat.le_succ_of_le hle)
          rintro ⟨n, hleast, hrun, -⟩
          omega
        · simp only [if_neg hless]
          have hloop := tryCounts_searches (fun count budget => ih (value.drop count) budget)
            (minCount atom.quantifier) (runLength atom.bytes (scanLimit atom.quantifier value) value) left
          exact ⟨Nat.le_trans hloop.left (Nat.le_succ_of_le hle), hloop.sound, hloop.complete⟩
      · rw [hscan]
        exact Searches.exhausted

end

/-- The atoms of a plan denote what the items denote. -/
theorem atomsLanguage_map {items : List (Item × Quantifier)} (h : WellFormedItems items) :
    atomsLanguage (items.map atomOf) = patternLanguage items := by
  rw [atomsLanguage, patternLanguage, List.map_map]
  congr 1
  apply List.map_congr_left
  intro item hitem
  have hbytes : {byte | item.1.byteSet.contains byte = true} = item.1.bytes :=
    Set.ext fun byte => (h item hitem).contains_byteSet byte
  show quantified item.2 (oneByte {byte | item.1.byteSet.contains byte = true}) = _
  rw [hbytes]

/-! ## The results -/

/-- **Patterns.** A text compiles if and only if it is the text of a pattern of at most 256 bytes. A match of its plan
is a match of the whole value in the language of the pattern, and with budget left all its values are matched. -/
theorem pattern_plan (text : Bytes) :
    ((compiledPatternPlan text).valid = true ↔
      text.length ≤ maxPatternBytes ∧ ∃ items, WellFormedItems items ∧ text = patternText items) ∧
    ∀ items, WellFormedItems items → text = patternText items → text.length ≤ maxPatternBytes →
      ∀ value budget,
        ((matchPatternPlanFrom (compiledPatternPlan text) value 0 0 budget).1 = true →
          value ∈ patternLanguage items) ∧
        ((matchPatternPlanFrom (compiledPatternPlan text) value 0 0 budget).2 ≠ 0 →
          ((matchPatternPlanFrom (compiledPatternPlan text) value 0 0 budget).1 = true ↔
            value ∈ patternLanguage items)) := by
  refine ⟨compiledPatternPlan_valid_iff, ?_⟩
  rintro items hitems rfl hlength value budget
  rw [compiledPatternPlan_text hitems hlength, matchPatternPlanFrom, List.drop_zero, List.drop_zero]
  have hsearch := matchAtoms_searches (items.map atomOf) value budget
  rw [atomsLanguage_map hitems] at hsearch
  exact ⟨hsearch.sound, fun hleft => ⟨hsearch.sound, hsearch.complete hleft⟩⟩

example : (matchPatternPlanFrom (compiledPatternPlan (lit "^[a-c]*c$")) (lit "abcc") 0 0 100).1 = true := by
  decide +kernel

end Ruvia.Web.Pattern
