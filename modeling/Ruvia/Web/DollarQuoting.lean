import Mathlib.Data.List.Nodup
import Mathlib.Data.List.Perm.Subperm
import Mathlib.Data.Nat.Find
import Ruvia.Library.Decimal
import Ruvia.Library.TextSearch
import Ruvia.Web.SqlScan

/-!
# `Web.DollarQuoting` — bodies in dollar quotes

`append_db_dollar_body` of `db_sql_format.h` takes the first delimiter of `$ruvia$`, `$ruvia1$`, … that the body does
not contain, and PostgreSQL reads the string up to the next such delimiter. Two delimiters cannot stand at one place,
so there are no more of them in a body than it has bytes, and the search ends. What the search does not see is the
seam: a body that ends with the delimiter but for its last `$` closes the string early (`dollar_body`).
-/

namespace Ruvia.Web

open Library

def dollar : UInt8 := 0x24

/-! ## The writer -/

/-- The delimiter of a suffix; the first one has none. -/
def dollarTag (suffix : Nat) : Bytes := lit "ruvia" ++ if suffix = 0 then [] else decimal suffix

def dollarDelimiter (suffix : Nat) : Bytes := dollar :: (dollarTag suffix ++ [dollar])

/-- The loop of `select_db_dollar_delimiter`, for a number of rounds. -/
def selectDbDollarDelimiter (containsDelimiter : Bytes → Bool) : Nat → Nat → Bytes → Option Bytes
  | 0, _, _ => none
  | rounds + 1, suffix, delimiter =>
    if containsDelimiter delimiter then
      selectDbDollarDelimiter containsDelimiter rounds (suffix + 1) (lit "$ruvia" ++ decimal suffix ++ [dollar])
    else some delimiter

/-- `append_db_dollar_body`. -/
def appendDbDollarBody (rounds : Nat) (output body : Bytes) : Option Bytes :=
  (selectDbDollarDelimiter (fun candidate => (findText candidate body).isSome) rounds 1 (lit "$ruvia$")).map
    fun delimiter => output ++ delimiter ++ body ++ delimiter

/-! ## PostgreSQL's rule -/

/-- `is_postgresql_dollar_tag_start`. -/
def isPostgresqlDollarTagStart (byte : UInt8) : Bool :=
  (0x61 ≤ byte && byte ≤ 0x7a) || (0x41 ≤ byte && byte ≤ 0x5a) || byte == 0x5f || 0x80 ≤ byte

/-- `is_postgresql_dollar_tag_continue`. -/
def isPostgresqlDollarTagContinue (byte : UInt8) : Bool :=
  isPostgresqlDollarTagStart byte || (0x30 ≤ byte && byte ≤ 0x39)

/-- A dollar-quoted string in front: what it stands for, up to the next occurrence of the delimiter that opens it,
and the text behind it. -/
def readDollarQuoted : Bytes → Option (Bytes × Bytes)
  | [] => none
  | first :: rest =>
    let tag := rest.takeWhile isPostgresqlDollarTagContinue
    if first = dollar ∧ tag.head?.all isPostgresqlDollarTagStart ∧ rest[tag.length]? = some dollar then
      let quoted := rest.drop (tag.length + 1)
      let delimiter := dollar :: (tag ++ [dollar])
      (findText delimiter quoted).map fun stop => (quoted.take stop, quoted.drop (stop + delimiter.length))
    else none

/-! ## The delimiters -/

section

variable {body : Bytes} {m n : Nat}

theorem dollarTag_bytes (n : Nat) : ∀ byte ∈ dollarTag n, isPostgresqlDollarTagContinue byte = true := by
  intro byte hmem
  rcases List.mem_append.mp hmem with hmem | hmem
  · exact List.all_eq_true.mp (show (lit "ruvia").all isPostgresqlDollarTagContinue = true by decide) byte hmem
  · split at hmem
    · cases hmem
    · have hdigit := decimal_digits n byte hmem
      simp only [isPostgresqlDollarTagContinue, Bool.or_eq_true, Bool.and_eq_true, decide_eq_true_eq,
        UInt8.le_iff_toNat_le]
      exact .inr hdigit

theorem dollar_not_tag : isPostgresqlDollarTagContinue dollar = false := by decide

theorem dollar_not_mem_dollarTag (n : Nat) : dollar ∉ dollarTag n := by
  intro hmem
  have hdollar := dollarTag_bytes n dollar hmem
  cases hdollar

theorem dollarTag_injective (h : dollarTag m = dollarTag n) : m = n := by
  have hsuffix := List.append_cancel_left h
  by_cases hm : m = 0
  · by_cases hn : n = 0
    · rw [hm, hn]
    · rw [if_pos hm, if_neg hn] at hsuffix
      exact absurd hsuffix.symm (decimal_ne_nil n)
  · rw [if_neg hm] at hsuffix
    split at hsuffix
    · exact absurd hsuffix (decimal_ne_nil m)
    · exact decimal_injective hsuffix

/-- The tag is the run of tag bytes behind the first `$`. -/
theorem takeWhile_dollarTag (n : Nat) (rest : Bytes) :
    (dollarTag n ++ dollar :: rest).takeWhile isPostgresqlDollarTagContinue = dollarTag n := by
  rw [List.takeWhile_append_of_pos (dollarTag_bytes n),
    List.takeWhile_cons_of_neg (by rw [dollar_not_tag]; exact Bool.false_ne_true), List.append_nil]

theorem dollarDelimiter_ne_nil (n : Nat) : dollarDelimiter n ≠ [] := List.cons_ne_nil _ _

theorem singleBorder_dollarDelimiter (n : Nat) : SingleBorder (dollarDelimiter n) :=
  singleBorder_of_enclosed (dollar_not_mem_dollarTag n)

/-- Two delimiters do not stand at one place. -/
theorem eq_of_occursAt {position : Nat} (hm : OccursAt (dollarDelimiter m) body position)
    (hn : OccursAt (dollarDelimiter n) body position) : m = n := by
  obtain ⟨behind, hbehind⟩ := hm
  obtain ⟨other, hother⟩ := hn
  have htext := congrArg List.tail (hbehind.trans hother.symm)
  simp only [dollarDelimiter, List.cons_append, List.append_assoc, List.tail_cons, List.nil_append] at htext
  have htag := congrArg (List.takeWhile isPostgresqlDollarTagContinue) htext
  rw [takeWhile_dollarTag, takeWhile_dollarTag] at htag
  exact dollarTag_injective htag

/-- **A body does not contain every delimiter**, not even of the first ones as many as it has bytes and one more. -/
theorem exists_free_delimiter (body : Bytes) : ∃ n ≤ body.length, findText (dollarDelimiter n) body = none := by
  by_contra hall
  have hplace : ∀ n, n ≤ body.length → ∃ position < body.length, OccursAt (dollarDelimiter n) body position := by
    intro n hn
    cases hfound : findText (dollarDelimiter n) body with
    | none => exact absurd ⟨n, hn, hfound⟩ hall
    | some position =>
      have hoccurs := ((findText_eq_some_iff (dollarDelimiter_ne_nil n)).mp hfound).1
      exact ⟨position, hoccurs.lt (dollarDelimiter_ne_nil n), hoccurs⟩
  choose! place hlt hoccurs using hplace
  -- the places of the first delimiters are distinct, and there is one too many
  have hnodup : ((List.range (body.length + 1)).map place).Nodup := by
    apply List.Nodup.map_on _ List.nodup_range
    intro m hm n hn heq
    rw [List.mem_range] at hm hn
    have hthere := hoccurs n (by omega)
    rw [← heq] at hthere
    exact eq_of_occursAt (hoccurs m (by omega)) hthere
  have hsubset : (List.range (body.length + 1)).map place ⊆ List.range body.length := by
    intro position hmem
    obtain ⟨n, hn, rfl⟩ := List.mem_map.mp hmem
    rw [List.mem_range] at hn ⊢
    exact hlt n (by omega)
  have hle := (List.subperm_of_subset hnodup hsubset).length_le
  rw [List.length_map, List.length_range, List.length_range] at hle
  omega

/-- The delimiters before the `n`-th occur in the body, and this one does not. -/
def IsFirstFree (body : Bytes) (n : Nat) : Prop :=
  (∀ m < n, (findText (dollarDelimiter m) body).isSome = true) ∧ findText (dollarDelimiter n) body = none

theorem exists_firstFree (body : Bytes) : ∃ n ≤ body.length, IsFirstFree body n := by
  classical
  obtain ⟨free, hle, hfree⟩ := exists_free_delimiter body
  have hexists : ∃ n, findText (dollarDelimiter n) body = none := ⟨free, hfree⟩
  refine ⟨Nat.find hexists, (Nat.find_min' hexists hfree).trans hle, fun m hm => ?_, Nat.find_spec hexists⟩
  exact Option.isSome_iff_ne_none.mpr (Nat.find_min hexists hm)

theorem IsFirstFree.unique (hm : IsFirstFree body m) (hn : IsFirstFree body n) : m = n := by
  rcases Nat.lt_trichotomy m n with hlt | heq | hlt
  · have hsome := hn.1 m hlt
    rw [hm.2] at hsome
    cases hsome
  · exact heq
  · have hsome := hm.1 n hlt
    rw [hn.2] at hsome
    cases hsome

/-- **The search finds the first free delimiter** when it may take a round for each and one more. -/
theorem selectDbDollarDelimiter_eq (h : IsFirstFree body n) {k rounds : Nat} (hk : k ≤ n) (hrounds : n < k + rounds) :
    selectDbDollarDelimiter (fun candidate => (findText candidate body).isSome) rounds (k + 1) (dollarDelimiter k) =
      some (dollarDelimiter n) := by
  induction rounds generalizing k with
  | zero => omega
  | succ rounds ih =>
    rw [selectDbDollarDelimiter]
    rcases Nat.lt_or_eq_of_le hk with hlt | rfl
    · have hnext : lit "$ruvia" ++ decimal (k + 1) ++ [dollar] = dollarDelimiter (k + 1) := by
        rw [dollarDelimiter, dollarTag, if_neg (Nat.succ_ne_zero k)]
        rfl
      rw [if_pos (h.1 k hlt), hnext]
      exact ih hlt (by omega)
    · rw [h.2]
      rfl

end

/-! ## The string read back -/

/-- The body ends with the first delimiter that it does not contain, but for the delimiter's last `$`. -/
def ImitatesDelimiter (body : Bytes) : Prop := ∃ n, IsFirstFree body n ∧ (dollarDelimiter n).dropLast <:+ body

/-- A string that a delimiter opens ends where the delimiter occurs next. -/
theorem readDollarQuoted_append (n : Nat) (quoted : Bytes) :
    readDollarQuoted (dollarDelimiter n ++ quoted) = (findText (dollarDelimiter n) quoted).map fun stop =>
      (quoted.take stop, quoted.drop (stop + (dollarDelimiter n).length)) := by
  have hstart : (dollarTag n).head?.all isPostgresqlDollarTagStart = true := by rfl
  have hclose : (dollarTag n ++ dollar :: quoted)[(dollarTag n).length]? = some dollar := by
    rw [List.getElem?_append_right le_rfl, Nat.sub_self]
    rfl
  have hquoted : (dollarTag n ++ dollar :: quoted).drop ((dollarTag n).length + 1) = quoted := by
    rw [List.drop_append, Nat.add_sub_cancel_left]
    simp
  rw [dollarDelimiter, List.cons_append, List.append_assoc, List.singleton_append]
  simp only [readDollarQuoted, takeWhile_dollarTag, hstart, hclose, hquoted, and_self, if_true]

/-- **Dollar quoting.** The delimiter search ends for every body, within as many rounds as the body has bytes and one
more; and PostgreSQL reads back exactly the body, with nothing behind it, if and only if the body does not end with
the chosen delimiter short of its last `$`. -/
theorem dollar_body (output body : Bytes) :
    ∃ text, (∀ rounds, body.length < rounds → appendDbDollarBody rounds output body = some (output ++ text)) ∧
      (readDollarQuoted text = some (body, []) ↔ ¬ ImitatesDelimiter body) := by
  obtain ⟨n, hle, hfree⟩ := exists_firstFree body
  refine ⟨dollarDelimiter n ++ (body ++ dollarDelimiter n), fun rounds hrounds => ?_, ?_⟩
  · have hselect := selectDbDollarDelimiter_eq hfree (Nat.zero_le n) (show n < 0 + rounds by omega)
    rw [appendDbDollarBody, show lit "$ruvia$" = dollarDelimiter 0 from rfl, hselect, Option.map_some]
    simp only [List.append_assoc]
  · have himitates : ImitatesDelimiter body ↔ (dollarDelimiter n).dropLast <:+ body := by
      constructor
      · rintro ⟨m, hm, hend⟩
        rwa [← hm.unique hfree]
      · exact fun hend => ⟨n, hfree, hend⟩
    rw [himitates, ← findText_append_self (singleBorder_dollarDelimiter n) hfree.2, readDollarQuoted_append,
      Option.map_eq_some_iff]
    constructor
    · rintro ⟨stop, hstop, hread⟩
      rw [Prod.mk.injEq] at hread
      have hlt := ((findText_eq_some_iff (dollarDelimiter_ne_nil n)).mp hstop).1.lt (dollarDelimiter_ne_nil n)
      have hlength := congrArg List.length hread.1
      rw [List.length_take, Nat.min_eq_left (Nat.le_of_lt hlt)] at hlength
      rw [hstop, hlength]
    · intro hstop
      refine ⟨_, hstop, ?_⟩
      rw [List.take_left, ← List.length_append, List.drop_length]

/-- The body `$ruvia` is read as the empty string, with `ruvia$` behind it. -/
theorem dollar_body_seam : ¬ ∀ body text, appendDbDollarBody (body.length + 1) [] body = some text →
    readDollarQuoted text = some (body, []) := by
  intro h
  have hread := h (lit "$ruvia") (lit "$ruvia$$ruvia$ruvia$") (by decide)
  revert hread
  decide

end Ruvia.Web
