import Ruvia.Library.ByteString
import Ruvia.Library.Scanner

/-!
# `Web.SqlScan` — SQL text told apart from SQL data

`db_sql_scan.h`, as MariaDB's parameter binder uses it. The functions of the source take a text and an index; here
they take the text from that index on, and give the number of bytes they step over. No step looks back, so the
atoms of a statement are the tokens of a `Scanner`.
-/

namespace Ruvia.Web

open Library

def singleQuote : UInt8 := 0x27
def doubleQuote : UInt8 := 0x22
def backtick : UInt8 := 0x60
def backslash : UInt8 := 0x5c
def placeholder : UInt8 := 0x3f
def dash : UInt8 := 0x2d
def slash : UInt8 := 0x2f
def star : UInt8 := 0x2a
def hash : UInt8 := 0x23
def newline : UInt8 := 0x0a
def carriageReturn : UInt8 := 0x0d

/-! ## The scanner -/

/-- A blank or a control byte: what makes a comment of the `--` before it. -/
def endsDoubleDash (byte : UInt8) : Bool := byte ≤ 0x20 || byte == 0x7f

/-- The lexer sees a NUL behind the statement, so a final `--` is a comment too. -/
def isMariadbDoubleDashComment : Bytes → Bool
  | [first, second] => first == dash && second == dash
  | first :: second :: third :: _ => first == dash && second == dash && endsDoubleDash third
  | _ => false

/-- The rest of a quoted run, behind its opening byte. A backslash takes the byte behind it along, a doubled
terminator is data, and an unclosed run takes everything. -/
def skipSqlQuotedBody (terminator : UInt8) (backslashEscapes : Bool) : Bytes → Nat
  | [] => 0
  | [_] => 1
  | character :: next :: rest =>
    if backslashEscapes && character == backslash then
      2 + skipSqlQuotedBody terminator backslashEscapes rest
    else if character == terminator then
      if next == terminator then 2 + skipSqlQuotedBody terminator backslashEscapes rest else 1
    else
      1 + skipSqlQuotedBody terminator backslashEscapes (next :: rest)

def skipSqlQuotedRun (terminator : UInt8) (backslashEscapes : Bool) : Bytes → Nat
  | [] => 0
  | _ :: body => 1 + skipSqlQuotedBody terminator backslashEscapes body

/-- The rest of a line comment, with the byte that ends it. -/
def skipSqlLineComment (carriageReturnEndsComment : Bool) : Bytes → Nat
  | [] => 0
  | character :: rest =>
    if character == newline || (carriageReturnEndsComment && character == carriageReturn) then 1
    else 1 + skipSqlLineComment carriageReturnEndsComment rest

/-- The rest of a block comment, behind its opening. -/
def skipSqlBlockComment : Bytes → Nat
  | [] => 0
  | [_] => 1
  | first :: second :: rest =>
    if first == star && second == slash then 2 else 1 + skipSqlBlockComment (second :: rest)

/-- The bytes of the construct in front. -/
def skipSqlAtom (backslashEscapes : Bool) : Bytes → Nat
  | [] => 0
  | first :: rest =>
    if first == singleQuote || first == doubleQuote then
      skipSqlQuotedRun first backslashEscapes (first :: rest)
    else if first == backtick then
      skipSqlQuotedRun backtick false (first :: rest)
    else if first == hash then
      1 + skipSqlLineComment false rest
    else if first == dash then
      if isMariadbDoubleDashComment (first :: rest) then 2 + skipSqlLineComment false (rest.drop 1) else 1
    else if first == slash then
      if rest.head? = some star then 2 + skipSqlBlockComment (rest.drop 1) else 1
    else 1

section

variable {terminator : UInt8} {backslashEscapes : Bool}

theorem skipSqlQuotedBody_le (body : Bytes) : skipSqlQuotedBody terminator backslashEscapes body ≤ body.length := by
  fun_induction skipSqlQuotedBody terminator backslashEscapes body <;> grind

theorem skipSqlQuotedRun_le (rest : Bytes) : skipSqlQuotedRun terminator backslashEscapes rest ≤ rest.length := by
  cases rest with
  | nil => exact Nat.le_refl 0
  | cons first body =>
    have hbody := @skipSqlQuotedBody_le terminator backslashEscapes body
    rw [skipSqlQuotedRun, List.length_cons]
    omega

theorem skipSqlLineComment_le (rest : Bytes) : skipSqlLineComment false rest ≤ rest.length := by
  fun_induction skipSqlLineComment false rest <;> grind

theorem skipSqlBlockComment_le (rest : Bytes) : skipSqlBlockComment rest ≤ rest.length := by
  fun_induction skipSqlBlockComment rest <;> grind

theorem length_pos_of_isMariadbDoubleDashComment {first : UInt8} {rest : Bytes}
    (h : isMariadbDoubleDashComment (first :: rest) = true) : 0 < rest.length := by
  cases rest with
  | nil => cases h
  | cons second rest => exact Nat.succ_pos _

theorem skipSqlAtom_pos (rest : Bytes) (h : rest ≠ []) : 0 < skipSqlAtom backslashEscapes rest := by
  cases rest with
  | nil => exact absurd rfl h
  | cons first rest =>
    rw [skipSqlAtom]
    have hquoted : ∀ terminator escapes, 0 < skipSqlQuotedRun terminator escapes (first :: rest) := by
      intro terminator escapes
      rw [skipSqlQuotedRun]
      omega
    split_ifs <;> first | exact hquoted _ _ | omega

theorem skipSqlAtom_le (rest : Bytes) : skipSqlAtom backslashEscapes rest ≤ rest.length := by
  cases rest with
  | nil => exact Nat.le_refl 0
  | cons first rest =>
    have hquoted := fun terminator escapes => @skipSqlQuotedRun_le terminator escapes (first :: rest)
    have hline := skipSqlLineComment_le rest
    have hdrop := skipSqlLineComment_le (rest.drop 1)
    have hblock := skipSqlBlockComment_le (rest.drop 1)
    rw [List.length_drop] at hdrop hblock
    rw [skipSqlAtom]
    split_ifs with hquote hback hhash hdash hcomment hslash hstar
    · exact hquoted _ _
    · exact hquoted _ _
    · rw [List.length_cons]
      omega
    · have hpos := length_pos_of_isMariadbDoubleDashComment hcomment
      rw [List.length_cons]
      omega
    · exact Nat.succ_pos _
    · cases rest with
      | nil => cases hstar
      | cons second rest =>
        simp only [List.length_cons, Nat.add_sub_cancel] at hblock ⊢
        omega
    · exact Nat.succ_pos _
    · exact Nat.succ_pos _

end

/-- The index of the next `wanted` byte at statement level, from `index` on, which lies between two atoms. -/
def findSqlSyntaxByte (sql : Bytes) (wanted : UInt8) (backslashEscapes : Bool) (index : Nat) : Option Nat :=
  if _ : index < sql.length then
    let next := index + skipSqlAtom backslashEscapes (sql.drop index)
    if next = index + 1 ∧ sql[index]? = some wanted then some index
    else findSqlSyntaxByte sql wanted backslashEscapes next
  else none
termination_by sql.length - index
decreasing_by
  have hpos := @skipSqlAtom_pos backslashEscapes (sql.drop index) (by simpa using ‹_›)
  omega

/-- The atoms of a statement. -/
def sqlScanner (backslashEscapes : Bool) : Scanner UInt8 where
  skip := skipSqlAtom backslashEscapes
  pos := skipSqlAtom_pos
  le := skipSqlAtom_le

theorem sqlScanner_skip {backslashEscapes : Bool} : (sqlScanner backslashEscapes).skip = skipSqlAtom backslashEscapes :=
  rfl

def sqlAtoms (backslashEscapes : Bool) (sql : Bytes) : List Bytes := (sqlScanner backslashEscapes).tokens sql

@[simp] theorem sqlAtoms_nil {backslashEscapes : Bool} : sqlAtoms backslashEscapes [] = [] := Scanner.tokens_nil _

variable {terminator wanted : UInt8} {backslashEscapes : Bool}

/-! ## Replacing the text behind an atom -/

section

variable {atom tail tail' : Bytes}

theorem skipSqlQuotedBody_pos {body : Bytes} (h : body ≠ []) :
    0 < skipSqlQuotedBody terminator backslashEscapes body := by
  fun_cases skipSqlQuotedBody terminator backslashEscapes body <;> first | exact absurd rfl h | omega

variable {body : Bytes}

theorem getLast?_cons_of_some {byte last : UInt8} (h : body.getLast? = some last) :
    (byte :: body).getLast? = some last := by
  rw [List.getLast?_cons, h]
  rfl

/-- A closed run stays closed in front of a text that does not begin with its terminator. -/
theorem skipSqlQuotedBody_replace (hnil : tail = [] → tail' = [])
    (hhead : body.getLast? = some terminator → tail.head? ≠ some terminator → tail'.head? ≠ some terminator)
    (h : skipSqlQuotedBody terminator backslashEscapes (body ++ tail) = body.length) :
    skipSqlQuotedBody terminator backslashEscapes (body ++ tail') = body.length := by
  fun_induction skipSqlQuotedBody terminator backslashEscapes body with
  | case1 =>
    cases tail with
    | nil => rw [hnil rfl]; rfl
    | cons first rest =>
      have hpos := @skipSqlQuotedBody_pos terminator backslashEscapes (first :: rest) (List.cons_ne_nil _ _)
      simp only [List.nil_append, List.length_nil] at h
      omega
  | case2 character =>
    cases tail with
    | nil => rw [hnil rfl]; rfl
    | cons first rest =>
      simp only [List.singleton_append, skipSqlQuotedBody, List.length_singleton] at h
      have hpos := @skipSqlQuotedBody_pos terminator backslashEscapes (first :: rest) (List.cons_ne_nil _ _)
      split_ifs at h with hescape hterminator hdouble
      · omega
      · omega
      · have hhead' := hhead (by simpa using hterminator) (by simpa using hdouble)
        cases tail' with
        | nil => rfl
        | cons first' rest' =>
          rw [List.singleton_append, skipSqlQuotedBody, if_neg hescape, if_pos hterminator,
            if_neg (by simpa using hhead')]
          rfl
      · omega
  | case3 character next rest hescape ih =>
    simp only [List.cons_append, skipSqlQuotedBody, if_pos hescape, List.length_cons] at h ⊢
    rw [ih (fun hlast => hhead (getLast?_cons_of_some (getLast?_cons_of_some hlast))) (by omega)]
    omega
  | case4 character next rest hescape hterminator hdouble ih =>
    simp only [List.cons_append, skipSqlQuotedBody, if_neg hescape, if_pos hterminator, if_pos hdouble,
      List.length_cons] at h ⊢
    rw [ih (fun hlast => hhead (getLast?_cons_of_some (getLast?_cons_of_some hlast))) (by omega)]
    omega
  | case5 character next rest hescape hterminator hdouble =>
    simp only [List.cons_append, skipSqlQuotedBody, if_neg hescape, if_pos hterminator, if_neg hdouble,
      List.length_cons] at h
    omega
  | case6 character next rest hescape hterminator ih =>
    simp only [List.cons_append, skipSqlQuotedBody, if_neg hescape, if_neg hterminator, List.length_cons] at h ⊢
    simp only [List.cons_append, List.length_cons] at ih
    rw [ih (fun hlast => hhead (getLast?_cons_of_some hlast)) (by omega)]
    omega

theorem skipSqlLineComment_pos {rest : Bytes} (h : rest ≠ []) : 0 < skipSqlLineComment false rest := by
  fun_cases skipSqlLineComment false rest <;> first | exact absurd rfl h | omega

theorem skipSqlLineComment_replace (hnil : tail = [] → tail' = [])
    (h : skipSqlLineComment false (body ++ tail) = body.length) :
    skipSqlLineComment false (body ++ tail') = body.length := by
  induction body with
  | nil =>
    rcases eq_or_ne tail [] with rfl | hne
    · rw [hnil rfl]; rfl
    · exact absurd h (Nat.ne_of_gt (skipSqlLineComment_pos hne))
  | cons character rest ih =>
    simp only [List.cons_append, skipSqlLineComment, List.length_cons] at h ⊢
    split_ifs at h ⊢
    · exact h
    · omega

theorem skipSqlBlockComment_pos {rest : Bytes} (h : rest ≠ []) : 0 < skipSqlBlockComment rest := by
  fun_cases skipSqlBlockComment rest <;> first | exact absurd rfl h | omega

theorem skipSqlBlockComment_replace (hnil : tail = [] → tail' = [])
    (h : skipSqlBlockComment (body ++ tail) = body.length) : skipSqlBlockComment (body ++ tail') = body.length := by
  fun_induction skipSqlBlockComment body with
  | case1 =>
    rcases eq_or_ne tail [] with rfl | hne
    · rw [hnil rfl]; rfl
    · exact absurd h (Nat.ne_of_gt (skipSqlBlockComment_pos hne))
  | case2 character =>
    cases tail with
    | nil => rw [hnil rfl]; rfl
    | cons first rest =>
      have hpos := @skipSqlBlockComment_pos (first :: rest) (List.cons_ne_nil _ _)
      simp only [List.singleton_append, skipSqlBlockComment, List.length_singleton] at h
      split_ifs at h <;> omega
  | case3 first second rest hclose =>
    simp only [List.cons_append, skipSqlBlockComment, if_pos hclose, List.length_cons] at h ⊢
    omega
  | case4 first second rest hclose ih =>
    simp only [List.cons_append, skipSqlBlockComment, if_neg hclose, List.length_cons] at h ⊢
    simp only [List.cons_append, List.length_cons] at ih
    rw [ih (by omega)]
    omega

/-- **An atom stays one** when the text behind it is replaced by one that begins the same way, as far as the scanner
looks at it. -/
theorem skipSqlAtom_replace (hatom : atom ≠ []) (hnil : tail = [] → tail' = [])
    (hquote : ∀ quote ∈ [singleQuote, doubleQuote, backtick], atom.getLast? = some quote →
      tail.head? ≠ some quote → tail'.head? ≠ some quote)
    (hstar : tail'.head? = some star → tail.head? = some star)
    (hdash : isMariadbDoubleDashComment (dash :: tail') = true → isMariadbDoubleDashComment (dash :: tail) = true)
    (h : skipSqlAtom backslashEscapes (atom ++ tail) = atom.length) :
    skipSqlAtom backslashEscapes (atom ++ tail') = atom.length := by
  obtain ⟨first, body, rfl⟩ := List.exists_cons_of_ne_nil hatom
  have hrun : ∀ escapes, first ∈ [singleQuote, doubleQuote, backtick] →
      skipSqlQuotedRun first escapes (first :: (body ++ tail)) = (first :: body).length →
      skipSqlQuotedRun first escapes (first :: (body ++ tail')) = (first :: body).length := by
    intro escapes hmem hskip
    rw [skipSqlQuotedRun, List.length_cons] at hskip ⊢
    rw [skipSqlQuotedBody_replace hnil
      (fun hlast => hquote first hmem (getLast?_cons_of_some hlast)) (by omega)]
    omega
  simp only [List.cons_append, skipSqlAtom] at h ⊢
  by_cases hsingle : (first == singleQuote || first == doubleQuote) = true
  · rw [if_pos hsingle] at h ⊢
    have hmem : first ∈ [singleQuote, doubleQuote, backtick] := by
      rcases Bool.or_eq_true_iff.mp hsingle with hfirst | hfirst
      · rw [eq_of_beq hfirst]; exact List.mem_cons_self
      · rw [eq_of_beq hfirst]; exact List.mem_cons_of_mem _ List.mem_cons_self
    exact hrun _ hmem h
  rw [if_neg hsingle] at h ⊢
  by_cases hback : (first == backtick) = true
  · obtain rfl := eq_of_beq hback
    exact hrun _ (by decide) h
  rw [if_neg hback] at h ⊢
  by_cases hhash : (first == hash) = true
  · rw [if_pos hhash, List.length_cons] at h ⊢
    rw [skipSqlLineComment_replace hnil (by omega)]
    omega
  rw [if_neg hhash] at h ⊢
  by_cases hfirst : (first == dash) = true
  · rw [if_pos hfirst] at h ⊢
    obtain rfl := eq_of_beq hfirst
    cases body with
    | nil =>
      have hcomment : ¬ isMariadbDoubleDashComment (dash :: ([] ++ tail)) = true := by
        intro hcomment
        rw [if_pos hcomment, List.length_singleton] at h
        omega
      exact if_neg fun hcomment' => hcomment (hdash hcomment')
    | cons second more =>
      have hcomment : isMariadbDoubleDashComment (dash :: (second :: more ++ tail)) = true := by
        by_contra hcomment
        rw [if_neg hcomment, List.length_cons, List.length_cons] at h
        omega
      rw [if_pos hcomment, List.length_cons, List.length_cons, List.cons_append, List.drop_one, List.tail_cons] at h
      have hcomment' : isMariadbDoubleDashComment (dash :: (second :: more ++ tail')) = true := by
        cases more with
        | nil =>
          rcases eq_or_ne tail [] with rfl | hne
          · rwa [hnil rfl]
          · have hpos := skipSqlLineComment_pos hne
            rw [List.nil_append] at h
            simp only [List.length_nil] at h
            omega
        | cons third more => exact hcomment
      rw [if_pos hcomment', List.cons_append, List.drop_one, List.tail_cons,
        skipSqlLineComment_replace hnil (by omega), List.length_cons, List.length_cons]
      omega
  rw [if_neg hfirst] at h ⊢
  by_cases hslash : (first == slash) = true
  · rw [if_pos hslash] at h ⊢
    cases body with
    | nil =>
      have hhead : tail.head? ≠ some star := by
        intro hhead
        rw [List.nil_append, if_pos hhead, List.length_singleton] at h
        omega
      exact if_neg fun hhead' => hhead (hstar hhead')
    | cons second more =>
      have hhead : (second :: more ++ tail).head? = some star := by
        by_contra hhead
        rw [if_neg hhead, List.length_cons, List.length_cons] at h
        omega
      rw [if_pos hhead, List.length_cons, List.length_cons, List.cons_append, List.drop_one, List.tail_cons] at h
      rw [if_pos (by exact hhead), List.cons_append, List.drop_one, List.tail_cons,
        skipSqlBlockComment_replace hnil (by omega), List.length_cons, List.length_cons]
      omega
  rw [if_neg hslash] at h ⊢
  exact h

end

/-! ## Searching -/

section

variable {sql : Bytes} {index position : Nat}

theorem sqlAtoms_drop (h : index < sql.length) : sqlAtoms backslashEscapes (sql.drop index) =
    sub sql index (skipSqlAtom backslashEscapes (sql.drop index)) ::
      sqlAtoms backslashEscapes (sql.drop (index + skipSqlAtom backslashEscapes (sql.drop index))) := by
  rw [sqlAtoms, Scanner.tokens_of_ne_nil _ (by simpa using h), List.drop_drop]
  rfl

/-- The atom at an index is the one wanted byte exactly where the search stops. -/
theorem sub_skip_eq_singleton_iff (h : index < sql.length) :
    sub sql index (skipSqlAtom backslashEscapes (sql.drop index)) = [wanted] ↔
      index + skipSqlAtom backslashEscapes (sql.drop index) = index + 1 ∧ sql[index]? = some wanted := by
  have hcons : sql.drop index = sql[index] :: sql.drop (index + 1) := List.drop_eq_getElem_cons h
  rw [sub, List.getElem?_eq_getElem h, Option.some.injEq, Nat.add_left_cancel_iff]
  have hle := @skipSqlAtom_le backslashEscapes (sql.drop index)
  constructor
  · intro heq
    have hlength := congrArg List.length heq
    rw [List.length_take_of_le hle, List.length_singleton] at hlength
    rw [hlength, hcons, List.take_succ_cons, List.take_zero] at heq
    exact ⟨hlength, List.singleton_inj.mp heq⟩
  · rintro ⟨hskip, hwanted⟩
    rw [hskip, hcons, List.take_succ_cons, List.take_zero, hwanted]

/-- A search that fails passes over every atom. -/
theorem findSqlSyntaxByte_eq_none (h : findSqlSyntaxByte sql wanted backslashEscapes index = none) :
    [wanted] ∉ sqlAtoms backslashEscapes (sql.drop index) := by
  fun_induction findSqlSyntaxByte sql wanted backslashEscapes index with
  | case1 index hlt next hfound => cases h
  | case2 index hlt next hother ih =>
    rw [sqlAtoms_drop hlt]
    refine List.not_mem_cons_of_ne_of_not_mem (fun heq => hother ?_) (ih h)
    exact (sub_skip_eq_singleton_iff hlt).mp heq.symm
  | case3 index hge =>
    rw [List.drop_eq_nil_of_le (by omega)]
    simp

section

variable (h : findSqlSyntaxByte sql wanted backslashEscapes index = some position)
include h

/-- **A search that succeeds** stops at the first atom that is the wanted byte. -/
theorem findSqlSyntaxByte_eq_some :
    ∃ before, [wanted] ∉ before ∧ before.flatten = sub sql index (position - index) ∧ index ≤ position ∧
      sqlAtoms backslashEscapes (sql.drop index) =
        before ++ [wanted] :: sqlAtoms backslashEscapes (sql.drop (position + 1)) := by
  fun_induction findSqlSyntaxByte sql wanted backslashEscapes index with
  | case1 index hlt next hfound =>
    cases h
    refine ⟨[], List.not_mem_nil, by simp [sub], Nat.le_refl _, ?_⟩
    rw [sqlAtoms_drop hlt, (sub_skip_eq_singleton_iff hlt).mpr hfound, List.nil_append]
    exact congrArg (fun next => [wanted] :: sqlAtoms backslashEscapes (sql.drop next)) hfound.1
  | case2 index hlt next hother ih =>
    obtain ⟨before, hbefore, hflatten, hle, hatoms⟩ := ih h
    have hnext : index ≤ next := Nat.le_add_right _ _
    refine ⟨sub sql index (next - index) :: before, ?_, ?_, hnext.trans hle, ?_⟩
    · refine List.not_mem_cons_of_ne_of_not_mem (fun heq => hother ?_) hbefore
      have hskip : next - index = skipSqlAtom backslashEscapes (sql.drop index) := Nat.add_sub_cancel_left _ _
      rw [hskip] at heq
      exact (sub_skip_eq_singleton_iff hlt).mp heq.symm
    · have hsplit : position - index = (next - index) + (position - next) := by omega
      rw [List.flatten_cons, hflatten, sub, sub, sub, hsplit, List.take_add, List.drop_drop,
        Nat.add_sub_cancel' hnext]
    · rw [sqlAtoms_drop hlt, List.cons_append]
      have hskip : next - index = skipSqlAtom backslashEscapes (sql.drop index) := Nat.add_sub_cancel_left _ _
      rw [hskip]
      exact congrArg _ hatoms
  | case3 index hge => cases h

/-- A search stops behind where it began and inside the statement. -/
theorem findSqlSyntaxByte_bounds : index ≤ position ∧ position < sql.length := by
  fun_induction findSqlSyntaxByte sql wanted backslashEscapes index with
  | case1 index hlt next hfound =>
    cases h
    exact ⟨Nat.le_refl _, hlt⟩
  | case2 index hlt next hother ih =>
    have hnext : index ≤ next := Nat.le_add_right _ _
    exact ⟨hnext.trans (ih h).1, (ih h).2⟩
  | case3 index hge => cases h

end

end

end Ruvia.Web
