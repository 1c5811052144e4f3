import Mathlib.Algebra.GroupWithZero.Nat
import Mathlib.Data.List.Chain
import Ruvia.Web.SqlLiterals

/-!
# `Web.SqlInterpolationContract` — parameters stay parameters

A statement with its parameters is a row of `Piece`s: atoms of the statement, and parameters in the place of its
placeholders. What `interpolate_sql` writes is the row with each parameter as its literal (`interpolateSql_spec`), and
the scanner reads just these pieces in it (`sqlAtoms_render`).
-/

namespace Ruvia.Web

open Library

/-- An atom of the statement, or a parameter bound to a placeholder. -/
inductive Piece where
  | text (atom : Bytes)
  | bound (param : DbValue)
  deriving DecidableEq, Repr

/-- The atoms with the parameters in the place of the placeholders, as far as there are both. -/
def bindAtoms : List Bytes → List DbValue → List Piece
  | [], _ => []
  | atom :: atoms, [] => .text atom :: bindAtoms atoms []
  | atom :: atoms, param :: params =>
    if atom = [placeholder] then .bound param :: bindAtoms atoms params
    else .text atom :: bindAtoms atoms (param :: params)

def sqlPieces (backslashEscapes : Bool) (sql : Bytes) (params : List DbValue) : List Piece :=
  bindAtoms (sqlAtoms backslashEscapes sql) params

namespace Piece

/-- What of the statement the piece stands for. -/
def source : Piece → Bytes
  | .text atom => atom
  | .bound _ => [placeholder]

/-- Neither is a placeholder next to a quote, nor are two next to each other that strings are bound to. -/
def Apart : Piece → Piece → Prop
  | .text atom, .bound _ => atom.getLast? ≠ some singleQuote
  | .bound _, .text atom => atom.head? ≠ some singleQuote
  | .bound param, .bound other => ¬ (param.isString = true ∧ other.isString = true)
  | .text _, .text _ => True

end Piece

section

variable (format : DoubleFormat) (backslashEscapes : Bool) (charset : Option MariadbCharset)

/-- The literal of a parameter that has one. -/
def literalOf (param : DbValue) : Bytes :=
  match valueLiteral format backslashEscapes charset param with
  | .ok literal => literal
  | .error _ => []

/-- What is written for a piece. -/
def Piece.render : Piece → Bytes
  | .text atom => atom
  | .bound param => literalOf format backslashEscapes charset param

/-- The atoms of what is written for a piece. -/
def Piece.atoms : Piece → List Bytes
  | .text atom => [atom]
  | .bound param => sqlAtoms backslashEscapes (literalOf format backslashEscapes charset param)

/-- The parameter has a literal, and a string one that the session reads as it is escaped. -/
structure Literal (param : DbValue) : Prop where
  ok : valueLiteral format backslashEscapes charset param = .ok (literalOf format backslashEscapes charset param)
  escapable : ∀ text, param = .string text → Escapable charset text

end

/-! ## Reading what was written -/

section

variable {format : DoubleFormat} {backslashEscapes : Bool} {charset : Option MariadbCharset} {param : DbValue}
  {tail : Bytes}

theorem Literal.shape (h : Literal format backslashEscapes charset param) :
    (∃ text, param = .string text ∧ Escapable charset text ∧
      literalOf format backslashEscapes charset param = stringLiteral backslashEscapes charset text) ∨
    param.isString = false ∧ Plain (literalOf format backslashEscapes charset param) ∧
      literalOf format backslashEscapes charset param ≠ [] := by
  rcases valueLiteral_shape h.ok with ⟨text, rfl, htext⟩ | hplain
  · exact .inl ⟨text, rfl, h.escapable text rfl, htext⟩
  · exact .inr hplain

/-- A plain literal begins with a word byte, or with a dash in front of one. -/
theorem Plain.front {literal : Bytes} (h : Plain literal) (hne : literal ≠ []) :
    ∃ first rest, literal = first :: rest ∧ (isWordByte first = true ∨
      first = dash ∧ ∃ second more, rest = second :: more ∧ isWordByte second = true) := by
  match literal, h with
  | [], _ => exact absurd rfl hne
  | [first], h => exact ⟨first, [], rfl, .inl h⟩
  | first :: second :: rest, h =>
    refine ⟨first, second :: rest, rfl, h.1.imp_right fun hdash => ⟨hdash.1, second, rest, rfl, hdash.2⟩⟩

/-- How a literal begins: with a byte that ends no comment, closes no run but a string's, and opens no comment. -/
theorem Literal.front (h : Literal format backslashEscapes charset param) (tail : Bytes) :
    ∃ first rest, literalOf format backslashEscapes charset param = first :: rest ∧
      (first = singleQuote → param.isString = true) ∧ first ≠ doubleQuote ∧ first ≠ backtick ∧ first ≠ star ∧
      endsDoubleDash first = false ∧ isMariadbDoubleDashComment (dash :: (first :: rest ++ tail)) = false := by
  rcases h.shape with ⟨text, rfl, -, htext⟩ | ⟨-, hplain, hne⟩
  · refine ⟨singleQuote, _, htext, fun _ => rfl, by decide, by decide, by decide, by decide, ?_⟩
    rw [List.cons_append]
    cases (escapeString backslashEscapes charset text ++ [singleQuote]) ++ tail <;> rfl
  · obtain ⟨first, rest, hliteral, hfirst⟩ := hplain.front hne
    refine ⟨first, rest, hliteral, ?_⟩
    rcases hfirst with hword | ⟨rfl, second, more, rfl, hword⟩
    · obtain ⟨hsingle, hdouble, hback, -, hdash, -, hstar, hends⟩ := isWordByte_ne hword
      refine ⟨fun hquote => absurd hquote hsingle, hdouble, hback, hstar, hends, ?_⟩
      rw [List.cons_append]
      cases rest ++ tail <;> simp [isMariadbDoubleDashComment, hdash]
    · obtain ⟨-, -, -, -, -, -, -, hends⟩ := isWordByte_ne hword
      refine ⟨fun hquote => absurd hquote (by decide), by decide, by decide, by decide, by decide, ?_⟩
      simp [isMariadbDoubleDashComment, hends]

/-- The atoms of a literal are its own, in front of a text that does not go on with its quotes. -/
theorem Literal.sqlAtoms_append (h : Literal format backslashEscapes charset param)
    (htail : param.isString = true → tail.head? ≠ some singleQuote) :
    sqlAtoms backslashEscapes (literalOf format backslashEscapes charset param ++ tail) =
      sqlAtoms backslashEscapes (literalOf format backslashEscapes charset param) ++
        sqlAtoms backslashEscapes tail := by
  rcases h.shape with ⟨text, rfl, hescape, htext⟩ | ⟨-, hplain, -⟩
  · have halone := @sqlAtoms_stringLiteral backslashEscapes text [] charset hescape (by simp)
    rw [List.append_nil, sqlAtoms_nil] at halone
    rw [htext, sqlAtoms_stringLiteral hescape (htail rfl), halone]
    rfl
  · rw [hplain.sqlAtoms_append, hplain.sqlAtoms_eq]

/-- What the scanner reads of a row of pieces is the same in the statement and in what is written for it, up to the
literals. -/
structure Readable (format : DoubleFormat) (backslashEscapes : Bool) (charset : Option MariadbCharset)
    (pieces : List Piece) : Prop where
  cut : sqlAtoms backslashEscapes (pieces.flatMap Piece.source) = pieces.map Piece.source
  apart : pieces.IsChain Piece.Apart
  literal : ∀ param, .bound param ∈ pieces → Literal format backslashEscapes charset param

variable {piece : Piece} {pieces : List Piece} {atom : Bytes}

theorem Readable.cons (h : Readable format backslashEscapes charset (piece :: pieces)) :
    piece.source ≠ [] ∧
    skipSqlAtom backslashEscapes (piece.source ++ pieces.flatMap Piece.source) = piece.source.length ∧
    Readable format backslashEscapes charset pieces := by
  have hcut := h.cut
  obtain ⟨hne, hskip, htail⟩ := (sqlScanner backslashEscapes).tokens_eq_cons hcut
  exact ⟨hne, hskip, htail, h.apart.tail, fun param hmem => h.literal param (List.mem_cons_of_mem _ hmem)⟩

theorem Readable.literal_head (h : Readable format backslashEscapes charset (.bound param :: pieces)) :
    Literal format backslashEscapes charset param := h.literal param List.mem_cons_self

section

variable (h : Readable format backslashEscapes charset pieces)
include h

/-- The first byte of what is written: the statement's own, or a literal's. -/
theorem Readable.head? {byte : UInt8}
    (hhead : (pieces.flatMap (Piece.render format backslashEscapes charset)).head? = some byte) :
    (pieces.flatMap Piece.source).head? = some byte ∨
      ∃ param behind rest, pieces = .bound param :: behind ∧
        literalOf format backslashEscapes charset param = byte :: rest := by
  cases pieces with
  | nil => cases hhead
  | cons piece pieces =>
    cases piece with
    | text atom =>
      obtain ⟨first, rest, hatom⟩ := List.exists_cons_of_ne_nil h.cons.1
      simp only [Piece.source] at hatom
      simp only [List.flatMap_cons, Piece.render, hatom, List.cons_append, List.head?_cons] at hhead
      simp only [List.flatMap_cons, Piece.source, hatom, List.cons_append, List.head?_cons]
      exact .inl hhead
    | bound param =>
      obtain ⟨first, rest, hliteral, -⟩ := h.literal_head.front []
      simp only [List.flatMap_cons, Piece.render, hliteral, List.cons_append, List.head?_cons,
        Option.some.injEq] at hhead
      exact .inr ⟨param, pieces, rest, rfl, by rw [hliteral, hhead]⟩

theorem Readable.flatMap_render_nil
    (hnil : pieces.flatMap Piece.source = []) :
    pieces.flatMap (Piece.render format backslashEscapes charset) = [] := by
  have hcut := h.cut
  rw [hnil, sqlAtoms_nil] at hcut
  rw [List.map_eq_nil_iff.mp hcut.symm]
  rfl

theorem Readable.flatMap_source_nil
    (hnil : pieces.flatMap (Piece.render format backslashEscapes charset) = []) :
    pieces.flatMap Piece.source = [] := by
  cases pieces with
  | nil => rfl
  | cons piece pieces =>
    rw [List.flatMap_cons, List.append_eq_nil_iff] at hnil
    cases piece with
    | text atom => exact absurd hnil.1 h.cons.1
    | bound param =>
      obtain ⟨first, rest, hliteral, -⟩ := h.literal_head.front []
      exact absurd (hliteral.symm.trans hnil.1) (List.cons_ne_nil _ _)

end

theorem isMariadbDoubleDashComment_dash_cons {byte : UInt8} : isMariadbDoubleDashComment (dash :: byte :: tail) =
    (byte == dash && (tail.head?.map endsDoubleDash).getD true) := by
  cases tail with
  | nil | cons third rest => simp [isMariadbDoubleDashComment]

section

variable (h : Readable format backslashEscapes charset pieces)
include h

/-- No literal makes a comment of the dash before it. -/
theorem Readable.dashComment
    (hcomment : isMariadbDoubleDashComment
      (dash :: pieces.flatMap (Piece.render format backslashEscapes charset)) = true) :
    isMariadbDoubleDashComment (dash :: pieces.flatMap Piece.source) = true := by
  cases pieces with
  | nil => exact hcomment
  | cons piece pieces =>
    cases piece with
    | bound param =>
      obtain ⟨first, rest, hliteral, -, -, -, -, -, hnot⟩ := h.literal_head.front
        (pieces.flatMap (Piece.render format backslashEscapes charset))
      rw [List.flatMap_cons, Piece.render, hliteral, hnot] at hcomment
      cases hcomment
    | text atom =>
      obtain ⟨first, more, hatom⟩ := List.exists_cons_of_ne_nil h.cons.1
      simp only [Piece.source] at hatom
      simp only [List.flatMap_cons, Piece.render, hatom, List.cons_append,
        isMariadbDoubleDashComment_dash_cons, Bool.and_eq_true] at hcomment
      simp only [List.flatMap_cons, Piece.source, hatom, List.cons_append,
        isMariadbDoubleDashComment_dash_cons, Bool.and_eq_true]
      refine ⟨hcomment.1, ?_⟩
      cases more with
      | cons second more => exact hcomment.2
      | nil =>
        -- The byte behind the second dash is the next piece's, and a literal's ends no comment.
        rw [List.nil_append] at hcomment ⊢
        have htail := h.cons.2.2
        cases hhead : (pieces.flatMap (Piece.render format backslashEscapes charset)).head? with
        | none => rw [htail.flatMap_source_nil (List.head?_eq_none_iff.mp hhead)]; rfl
        | some byte =>
          rw [hhead] at hcomment
          rcases htail.head? hhead with hsource | ⟨param, behind, rest, rfl, hliteral⟩
          · rw [hsource]
            exact hcomment.2
          · obtain ⟨first', rest', hliteral', -, -, -, -, hends, -⟩ := htail.literal_head.front []
            cases hliteral'.symm.trans hliteral
            rw [Option.map_some, hends] at hcomment
            exact absurd hcomment.2 (by decide)

/-- **What is written for readable pieces** reads as these pieces. -/
theorem sqlAtoms_render :
    sqlAtoms backslashEscapes (pieces.flatMap (Piece.render format backslashEscapes charset)) =
      pieces.flatMap (Piece.atoms format backslashEscapes charset) := by
  induction pieces with
  | nil => exact sqlAtoms_nil
  | cons piece pieces ih =>
    obtain ⟨hne, hskip, htail⟩ := h.cons
    rw [List.flatMap_cons, List.flatMap_cons, ← ih htail]
    cases piece with
    | text atom =>
      refine (sqlScanner backslashEscapes).tokens_append ?_ hne
      refine skipSqlAtom_replace hne htail.flatMap_render_nil ?_ ?_ htail.dashComment hskip
      · intro quote hmem hlast hsource hhead
        rcases htail.head? hhead with hother | ⟨param, behind, rest, rfl, hliteral⟩
        · exact hsource hother
        · obtain ⟨first, rest', hliteral', -, hdouble, hback, -⟩ := htail.literal_head.front []
          cases hliteral'.symm.trans hliteral
          have hapart : atom.getLast? ≠ some singleQuote := (List.isChain_cons_cons.mp h.apart).1
          simp only [List.mem_cons, List.not_mem_nil, or_false] at hmem
          rcases hmem with rfl | rfl | rfl
          · exact hapart hlast
          · exact hdouble rfl
          · exact hback rfl
      · intro hhead
        rcases htail.head? hhead with hother | ⟨param, behind, rest, rfl, hliteral⟩
        · exact hother
        · obtain ⟨first, rest', hliteral', -, -, -, hstar, -⟩ := htail.literal_head.front []
          cases hliteral'.symm.trans hliteral
          exact absurd rfl hstar
    | bound param =>
      refine h.literal_head.sqlAtoms_append fun hstring hhead => ?_
      rcases htail.head? hhead with hother | ⟨other, behind, rest, rfl, hliteral⟩
      · cases pieces with
        | nil => cases hother
        | cons next behind =>
          cases next with
          | text atom =>
            have hapart : atom.head? ≠ some singleQuote := (List.isChain_cons_cons.mp h.apart).1
            obtain ⟨first, more, hatom⟩ := List.exists_cons_of_ne_nil htail.cons.1
            simp only [Piece.source] at hatom
            simp only [List.flatMap_cons, Piece.source, hatom, List.cons_append, List.head?_cons] at hother
            rw [hatom] at hapart
            exact hapart hother
          | bound other =>
            simp only [List.flatMap_cons, Piece.source, List.cons_append, List.head?_cons] at hother
            exact absurd hother (by decide)
      · obtain ⟨first, rest', hliteral', hsingle, -⟩ := htail.literal_head.front []
        cases hliteral'.symm.trans hliteral
        exact (List.isChain_cons_cons.mp h.apart).1 ⟨hstring, hsingle rfl⟩

end

end

/-! ## The two passes -/

/-- The placeholders found from an offset on, and the offset behind the last of them. -/
inductive Placed (backslashEscapes : Bool) (sql : Bytes) : Nat → List Nat → Nat → Prop
  | nil {offset} : Placed backslashEscapes sql offset [] offset
  | cons {offset position positions last} :
      findSqlSyntaxByte sql placeholder backslashEscapes offset = some position →
      Placed backslashEscapes sql (position + 1) positions last →
      Placed backslashEscapes sql offset (position :: positions) last

/-- The statement from an offset up to the last placeholder, with literals for the placeholders. -/
def splice (sql : Bytes) : Nat → List Nat → List Bytes → Bytes
  | offset, position :: positions, literal :: literals =>
    sub sql offset (position - offset) ++ literal ++ splice sql (position + 1) positions literals
  | _, _, _ => []

section

variable {format : DoubleFormat} {longMax : Nat} {backslashEscapes : Bool} {charset : Option MariadbCharset}
  {sql : Bytes} {params : List DbValue} {offset last : Nat} {positions : List Nat}

theorem Placed.le (h : Placed backslashEscapes sql offset positions last) (hle : offset ≤ sql.length) :
    offset ≤ last ∧ last ≤ sql.length := by
  induction h with
  | nil => exact ⟨Nat.le_refl _, hle⟩
  | cons hfind _ ih =>
    obtain ⟨hposition, hlt⟩ := findSqlSyntaxByte_bounds hfind
    omega

/-- What the first pass has found and checked. -/
structure Measures (longMax : Nat) (backslashEscapes : Bool) (charset : Option MariadbCharset) (sql : Bytes)
    (i : Nat) (measured after : Measured) (params : List DbValue) (positions hints : List Nat) : Prop where
  placed : Placed backslashEscapes sql measured.scanOffset positions after.scanOffset
  length : positions.length = params.length
  inline : after.inlinePlaceholders =
    measured.inlinePlaceholders ++ positions.take (inlinePlaceholderCapacity - i)
  hinted : List.Forall₂ (fun param hint => valueLiteralSizeHint longMax param = .ok hint) params hints
  sizeHint : after.sizeHint = measured.sizeHint + hints.sum
  fits : measured.sizeHint ≤ longMax → after.sizeHint ≤ longMax

theorem measure_ok {i : Nat} {measured after : Measured}
    (h : measure longMax backslashEscapes charset sql i measured params = .ok after) :
    ∃ positions hints,
      Measures longMax backslashEscapes charset sql i measured after params positions hints := by
  induction params generalizing i measured with
  | nil =>
    cases h
    exact ⟨[], [], .nil, rfl, by simp, .nil, rfl, id⟩
  | cons param params ih =>
    rw [measure] at h
    cases hfind : findSqlSyntaxByte sql placeholder backslashEscapes measured.scanOffset with
    | none => rw [hfind] at h; cases h
    | some position =>
      rw [hfind] at h
      cases hvalid : validateParameter backslashEscapes charset param with
      | error error => rw [hvalid] at h; cases h
      | ok _ =>
        cases hhint : valueLiteralSizeHint longMax param with
        | error error => rw [hvalid, hhint] at h; cases h
        | ok hint =>
          rw [hvalid, hhint] at h
          simp only [bind, Except.bind] at h
          split at h
          · cases h
          · cases hlength : validateMariadbSqlLength longMax (measured.sizeHint + hint) with
            | error error => rw [hlength] at h; cases h
            | ok _ =>
              rw [hlength] at h
              obtain ⟨positions, hints, hrest⟩ := ih h
              have hfits : measured.sizeHint + hint ≤ longMax := by
                rw [validateMariadbSqlLength] at hlength
                split at hlength
                · cases hlength
                · omega
              refine ⟨position :: positions, hint :: hints, .cons hfind hrest.placed, ?_, ?_,
                .cons hhint hrest.hinted, ?_, fun _ => hrest.fits hfits⟩
              · rw [List.length_cons, List.length_cons, hrest.length]
              · rw [hrest.inline]
                split
                · have htake : inlinePlaceholderCapacity - i = (inlinePlaceholderCapacity - (i + 1)) + 1 := by omega
                  rw [htake, List.take_succ_cons, List.append_assoc, List.singleton_append]
                · have hzero : inlinePlaceholderCapacity - i = 0 := by omega
                  have hzero' : inlinePlaceholderCapacity - (i + 1) = 0 := by omega
                  rw [hzero, hzero', List.take_zero, List.take_zero]
              · rw [hrest.sizeHint, List.sum_cons]
                dsimp only
                omega

/-- The second pass finds the placeholders of the first, in the array or by another search. -/
theorem writeParams_eq {i : Nat} {inline : List Nat} {output : Bytes}
    (hplaced : Placed backslashEscapes sql offset positions last) (hlength : positions.length = params.length)
    (hinline : ∀ k, i + k < inlinePlaceholderCapacity → k < positions.length → inline[i + k]? = positions[k]?) :
    (writeParams format backslashEscapes charset sql inline i offset output params =
        (.ok (), last, output ++ splice sql offset positions
          (params.map (literalOf format backslashEscapes charset))) ∧
      ∀ param ∈ params, valueLiteral format backslashEscapes charset param =
        .ok (literalOf format backslashEscapes charset param)) ∨
    ∃ error, (writeParams format backslashEscapes charset sql inline i offset output params).1 = .error error ∧
      ∃ param ∈ params, valueLiteral format backslashEscapes charset param = .error error := by
  induction hplaced generalizing i output params with
  | nil =>
    cases params with
    | nil => exact .inl ⟨by simp [writeParams, splice], by simp⟩
    | cons param params => cases hlength
  | @cons offset position positions last hfind hrest ih =>
    cases params with
    | nil => cases hlength
    | cons param params =>
      have hposition : (if i < inlinePlaceholderCapacity then inline.getD i 0
          else (findSqlSyntaxByte sql placeholder backslashEscapes offset).getD sql.length) = position := by
        split
        · have hfirst := hinline 0 (by omega) (by simp)
          rw [Nat.add_zero, List.getElem?_cons_zero] at hfirst
          rw [List.getD_eq_getElem?_getD, hfirst]
          rfl
        · rw [hfind]
          rfl
      rw [writeParams, hposition]
      cases hvalue : valueLiteral format backslashEscapes charset param with
      | error error => exact .inr ⟨error, rfl, param, List.mem_cons_self, hvalue⟩
      | ok literal =>
        have hliteral : literalOf format backslashEscapes charset param = literal := by rw [literalOf, hvalue]
        dsimp only
        rcases @ih params (i + 1) (output ++ sub sql offset (position - offset) ++ literal)
          (by simpa using hlength) (fun k hk hlt => by
            have hnext := hinline (k + 1) (by omega) (by simpa using hlt)
            rw [List.getElem?_cons_succ] at hnext
            rw [← hnext]
            congr 1
            omega) with ⟨hwrite, hall⟩ | ⟨error, herror, other, hmem, hother⟩
        · refine .inl ⟨?_, fun other hmem => ?_⟩
          · rw [hwrite, List.map_cons, splice, hliteral, List.append_assoc, List.append_assoc, List.append_assoc]
          · rcases List.mem_cons.mp hmem with rfl | hmem
            · rw [hvalue, hliteral]
            · exact hall other hmem
        · exact .inr ⟨error, herror, other, List.mem_cons_of_mem _ hmem, hother⟩

theorem measureAll_ok {measured : Measured}
    (h : measureAll longMax backslashEscapes charset sql params = .ok measured) :
    ∃ positions hints, Measures longMax backslashEscapes charset sql 0 { sizeHint := sql.length } measured params
        positions hints ∧ measured.sizeHint ≤ longMax ∧
      [placeholder] ∉ sqlAtoms backslashEscapes (sql.drop measured.scanOffset) := by
  rw [measureAll] at h
  cases hlength : validateMariadbSqlLength longMax sql.length with
  | error error => rw [hlength] at h; cases h
  | ok _ =>
    cases hmeasure : measure longMax backslashEscapes charset sql 0 { sizeHint := sql.length } params with
    | error error => rw [hlength, hmeasure] at h; cases h
    | ok after =>
      rw [hlength, hmeasure] at h
      simp only [bind, Except.bind] at h
      split at h
      · cases h
      · rename_i hnone
        cases h
        obtain ⟨positions, hints, hmeasured⟩ := measure_ok hmeasure
        have hfits : sql.length ≤ longMax := by
          rw [validateMariadbSqlLength] at hlength
          split at hlength
          · cases hlength
          · omega
        refine ⟨positions, hints, hmeasured, hmeasured.fits hfits, findSqlSyntaxByte_eq_none ?_⟩
        simpa using hnone

end

/-! ## Pieces in place -/

section

variable {format : DoubleFormat} {longMax : Nat} {backslashEscapes : Bool} {charset : Option MariadbCharset}
  {sql output written : Bytes} {params : List DbValue} {offset last : Nat} {positions : List Nat}
  {atoms before : List Bytes}

theorem map_source_bindAtoms (atoms : List Bytes) (params : List DbValue) :
    (bindAtoms atoms params).map Piece.source = atoms := by
  fun_induction bindAtoms atoms params with
  | case1 => rfl
  | case2 atom atoms ih | case3 atoms param params ih => rw [List.map_cons, ih]; rfl
  | case4 atom atoms param params hother ih => rw [List.map_cons, ih]; rfl

theorem mem_of_bound_mem {param : DbValue} (h : .bound param ∈ bindAtoms atoms params) : param ∈ params := by
  fun_induction bindAtoms atoms params with
  | case1 => cases h
  | case2 atom atoms ih | case4 atom atoms other params hother ih =>
    rcases List.mem_cons.mp h with h | h
    · cases h
    · exact ih h
  | case3 atoms other params ih =>
    rcases List.mem_cons.mp h with h | h
    · cases h
      exact List.mem_cons_self
    · exact List.mem_cons_of_mem _ (ih h)

theorem bindAtoms_append (hbefore : [placeholder] ∉ before) :
    bindAtoms (before ++ atoms) params = before.map .text ++ bindAtoms atoms params := by
  induction before with
  | nil => rfl
  | cons atom before ih =>
    rw [List.mem_cons, not_or] at hbefore
    obtain ⟨hatom, hbefore⟩ := hbefore
    cases params with
    | nil => rw [List.cons_append, bindAtoms, ih hbefore]; rfl
    | cons param params => rw [List.cons_append, bindAtoms, if_neg (Ne.symm hatom), ih hbefore]; rfl

theorem flatMap_render_text (atoms : List Bytes) :
    (atoms.map Piece.text).flatMap (Piece.render format backslashEscapes charset) = atoms.flatten := by
  induction atoms with
  | nil => rfl
  | cons atom atoms ih =>
    rw [List.map_cons, List.flatMap_cons, ih]
    rfl

theorem flatten_sqlAtoms (sql : Bytes) : (sqlAtoms backslashEscapes sql).flatten = sql := Scanner.flatten_tokens _ _

/-- Where the placeholders are found, there the parameters are bound. -/
theorem Placed.bind (h : Placed backslashEscapes sql offset positions last)
    (hlength : positions.length = params.length) (hlast : [placeholder] ∉ sqlAtoms backslashEscapes (sql.drop last)) :
    (bindAtoms (sqlAtoms backslashEscapes (sql.drop offset)) params).flatMap
        (Piece.render format backslashEscapes charset) =
      splice sql offset positions (params.map (literalOf format backslashEscapes charset)) ++ sql.drop last ∧
    (sqlAtoms backslashEscapes (sql.drop offset)).count [placeholder] = params.length := by
  induction h generalizing params with
  | @nil offset =>
    cases params with
    | cons param params => cases hlength
    | nil =>
      have hbind := @bindAtoms_append [] [] _ hlast
      rw [List.append_nil] at hbind
      rw [hbind, List.count_eq_zero_of_not_mem hlast, List.flatMap_append, flatMap_render_text, flatten_sqlAtoms]
      exact ⟨by simp [bindAtoms, splice], rfl⟩
  | @cons offset position positions last hfind hrest ih =>
    cases params with
    | nil => cases hlength
    | cons param params =>
      obtain ⟨before, hbefore, hflatten, -, hatoms⟩ := findSqlSyntaxByte_eq_some hfind
      obtain ⟨hrender, hcount⟩ := @ih params (by simpa using hlength) hlast
      rw [hatoms, bindAtoms_append hbefore, bindAtoms, if_pos rfl]
      constructor
      · rw [List.flatMap_append, flatMap_render_text, hflatten, List.flatMap_cons, hrender, List.map_cons, splice,
          List.append_assoc, List.append_assoc]
        rfl
      · rw [List.count_append, List.count_eq_zero_of_not_mem hbefore, List.count_cons_self, hcount, List.length_cons,
          Nat.zero_add]

/-- The literals take no more than what is reserved for them. -/
theorem length_splice_le {hints : List Nat} (h : Placed backslashEscapes sql offset positions last)
    (hoffset : offset ≤ sql.length) (hlength : positions.length = params.length)
    (hhints : List.Forall₂ (fun param hint => valueLiteralSizeHint longMax param = .ok hint) params hints)
    (hliterals : ∀ param ∈ params, Literal format backslashEscapes charset param) :
    (splice sql offset positions (params.map (literalOf format backslashEscapes charset))).length ≤
      (last - offset) + hints.sum := by
  induction h generalizing params hints with
  | nil =>
    rw [splice]
    · exact Nat.zero_le _
    · intro position positions literal literals hnil
      cases hnil
  | @cons offset position positions last hfind hrest ih =>
    cases hhints with
    | nil => cases hlength
    | @cons param hint params hints hhint hhints =>
      obtain ⟨hposition, hlt⟩ := findSqlSyntaxByte_bounds hfind
      have hrest' := ih hlt (by simpa using hlength) hhints
        fun param hmem => hliterals param (List.mem_cons_of_mem _ hmem)
      have hparam := hliterals param List.mem_cons_self
      have hle := length_valueLiteral_le hparam.escapable hhint hparam.ok
      have hlast := hrest.le hlt
      have hsub : (sub sql offset (position - offset)).length ≤ position - offset := List.length_take_le _ _
      rw [List.map_cons, splice, List.length_append, List.length_append, List.sum_cons]
      omega

/-- Every parameter is escapable in the session's character set. -/
def AllEscapable (charset : Option MariadbCharset) (params : List DbValue) : Prop :=
  ∀ text, .string text ∈ params → Escapable charset text

/-- **What `interpolate_sql` does**: it throws and leaves the output alone, or throws because of a double that is no
number, or writes the pieces. -/
theorem interpolateSql_spec (hescape : AllEscapable charset params) :
    (∃ error, interpolateSql format longMax backslashEscapes charset sql params output = (.error error, output)) ∨
    (∃ bits written, .doubleValue bits ∈ params ∧ isFinite bits = false ∧
      interpolateSql format longMax backslashEscapes charset sql params output =
        (.error (.invalidArgument "database double value must be finite"), written)) ∨
    interpolateSql format longMax backslashEscapes charset sql params output =
        (.ok (), (sqlPieces backslashEscapes sql params).flatMap (Piece.render format backslashEscapes charset)) ∧
      (∀ param ∈ params, Literal format backslashEscapes charset param) ∧
      params.length = (sqlAtoms backslashEscapes sql).count [placeholder] := by
  rw [interpolateSql]
  cases hmeasure : measureAll longMax backslashEscapes charset sql params with
  | error error => exact .inl ⟨error, rfl⟩
  | ok measured =>
    obtain ⟨positions, hints, hmeasured, hfits, hlast⟩ := measureAll_ok hmeasure
    rcases @writeParams_eq format backslashEscapes charset sql params 0 measured.scanOffset positions 0
      measured.inlinePlaceholders [] hmeasured.placed hmeasured.length (fun k hk _ => by
        rw [hmeasured.inline, List.nil_append, Nat.sub_zero, Nat.zero_add, List.getElem?_take_of_lt (by omega)])
      with ⟨hwrite, hall⟩ | ⟨error, hwrite, param, hmem, hvalue⟩
    · have hliterals : ∀ param ∈ params, Literal format backslashEscapes charset param := fun param hmem =>
        ⟨hall param hmem, fun text htext => hescape text (htext ▸ hmem)⟩
      obtain ⟨hrender, hcount⟩ := @Placed.bind format backslashEscapes charset sql params _ _ _ hmeasured.placed
        hmeasured.length hlast
      rw [List.drop_zero] at hrender hcount
      have hbounds := hmeasured.placed.le (Nat.zero_le _)
      have hlength := length_splice_le hmeasured.placed (Nat.zero_le _) hmeasured.length hmeasured.hinted hliterals
      have hsize := hmeasured.sizeHint
      dsimp only at hsize hlength hbounds hrender
      refine .inr (.inr ⟨?_, hliterals, hcount.symm⟩)
      dsimp only
      rw [hwrite]
      dsimp only
      rw [List.nil_append, sqlPieces, hrender, validateMariadbSqlLength, if_neg]
      rw [List.length_append, List.length_drop]
      omega
    · obtain ⟨bits, rfl, hfinite, rfl⟩ := valueLiteral_error hvalue
      dsimp only
      rcases hresult : writeParams format backslashEscapes charset sql measured.inlinePlaceholders 0 0 [] params with
        ⟨result, offset, written⟩
      rw [hresult] at hwrite
      dsimp only at hwrite
      rw [hwrite]
      exact .inr (.inl ⟨bits, written, hmem, hfinite, rfl⟩)

theorem readable_sqlPieces (hapart : (sqlPieces backslashEscapes sql params).IsChain Piece.Apart)
    (hliterals : ∀ param ∈ params, Literal format backslashEscapes charset param) :
    Readable format backslashEscapes charset (sqlPieces backslashEscapes sql params) where
  cut := by
    have hsource := map_source_bindAtoms (sqlAtoms backslashEscapes sql) params
    rw [sqlPieces, hsource, List.flatMap_def, hsource, flatten_sqlAtoms]
  apart := hapart
  literal param hmem := hliterals param (mem_of_bound_mem hmem)

/-- **Parameters cannot be broken out of.** When `interpolate_sql` succeeds there is a parameter for each placeholder,
and the scanner reads in the output just the atoms of the statement, with those of its literal for each placeholder;
a string's is one quoted run, which stands for the parameter. It throws before it touches the output, unless a double
is no number. -/
theorem interpolation (format : DoubleFormat) (longMax : Nat) (backslashEscapes : Bool)
    (charset : Option MariadbCharset) (sql output : Bytes) (params : List DbValue)
    (hescape : AllEscapable charset params)
    (hapart : (sqlPieces backslashEscapes sql params).IsChain Piece.Apart) :
    (∀ written, interpolateSql format longMax backslashEscapes charset sql params output = (.ok (), written) →
      params.length = (sqlAtoms backslashEscapes sql).count [placeholder] ∧
      sqlAtoms backslashEscapes written =
        (sqlPieces backslashEscapes sql params).flatMap (Piece.atoms format backslashEscapes charset) ∧
      ∀ text, .string text ∈ params →
        ∃ quoted, literalOf format backslashEscapes charset (.string text) = singleQuote :: (quoted ++ [singleQuote]) ∧
          sqlAtoms backslashEscapes (literalOf format backslashEscapes charset (.string text)) =
            [literalOf format backslashEscapes charset (.string text)] ∧
          unescape backslashEscapes quoted = text) ∧
    ∀ error written, interpolateSql format longMax backslashEscapes charset sql params output =
        (.error error, written) →
      written = output ∨ error = .invalidArgument "database double value must be finite" ∧
        ∃ bits, .doubleValue bits ∈ params ∧ isFinite bits = false := by
  have hspec := @interpolateSql_spec format longMax backslashEscapes charset sql output params hescape
  constructor
  · intro written hok
    rcases hspec with ⟨error, herror⟩ | ⟨bits, other, -, -, herror⟩ | ⟨hwritten, hliterals, hcount⟩
    · cases herror.symm.trans hok
    · cases herror.symm.trans hok
    · cases hwritten.symm.trans hok
      refine ⟨hcount, sqlAtoms_render (readable_sqlPieces hapart hliterals), fun text hmem => ?_⟩
      have halone := @sqlAtoms_stringLiteral backslashEscapes text [] charset (hescape text hmem) (by simp)
      rw [List.append_nil, sqlAtoms_nil] at halone
      exact ⟨escapeString backslashEscapes charset text, rfl, halone, unescape_escapeString (hescape text hmem)⟩
  · intro error written hthrow
    rcases hspec with ⟨other, herror⟩ | ⟨bits, other, hmem, hfinite, herror⟩ | ⟨hwritten, -⟩
    · cases herror.symm.trans hthrow
      exact .inl rfl
    · cases herror.symm.trans hthrow
      exact .inr ⟨rfl, bits, hmem, hfinite⟩
    · cases hwritten.symm.trans hthrow

end

/-- A format that is right for zero. -/
def zeroFormat : DoubleFormat where
  toChars _ := lit "0"
  decimal _ _ :=
    ⟨by decide, [], lit "0", [], [], rfl, .inl rfl, ⟨by decide, List.all_eq_true.mp (by decide)⟩, .inl rfl, .inl rfl⟩

/-- A statement with a quoted question mark, a string with a quote and a backslash, and a zero. -/
theorem interpolation_quoted :
    sqlAtoms true (lit "a ?, '?' ?") = [lit "a", lit " ", lit "?", lit ",", lit " ", lit "'?'", lit " ", lit "?"] ∧
    interpolateSql zeroFormat 100 true none (lit "a ?, '?' ?") [.string (lit "a'\\"), .doubleValue 0] (lit "old") =
      (.ok (), lit "a 'a''\\\\', '?' 0e0") ∧
    sqlAtoms true (lit "a 'a''\\\\', '?' 0e0") =
      [lit "a", lit " ", lit "'a''\\\\'", lit ",", lit " ", lit "'?'", lit " ", lit "0", lit "e", lit "0"] := by
  have hpieces : sqlPieces true (lit "a ?, '?' ?") [.string (lit "a'\\"), .doubleValue 0] =
      [.text (lit "a"), .text (lit " "), .bound (.string (lit "a'\\")), .text (lit ","), .text (lit " "),
        .text (lit "'?'"), .text (lit " "), .bound (.doubleValue 0)] := by decide +kernel
  have hwritten : interpolateSql zeroFormat 100 true none (lit "a ?, '?' ?") [.string (lit "a'\\"), .doubleValue 0]
      (lit "old") = (.ok (), lit "a 'a''\\\\', '?' 0e0") := by decide +kernel
  have hread := ((interpolation zeroFormat 100 true none (lit "a ?, '?' ?") (lit "old")
    [.string (lit "a'\\"), .doubleValue 0] nofun (by
      rw [hpieces]
      simp only [List.isChain_cons_cons, List.isChain_singleton, Piece.Apart, and_true, true_and]
      decide)).1 _ hwritten).2.1
  refine ⟨by decide +kernel, hwritten, hread.trans ?_⟩
  rw [hpieces]
  decide +kernel

/-- The literals of two strings for `??` are read as one run, and a double that is no number is refused when a part
of the statement is written already. -/
theorem adjacent_strings_join :
    (∀ quote ∈ [singleQuote, doubleQuote, backtick], quote ∉ lit "??") ∧
    interpolateSql zeroFormat 100 true none (lit "??") [.string (lit "a"), .string (lit "b")] (lit "old") =
      (.ok (), lit "'a''b'") ∧
    sqlAtoms true (lit "'a''b'") = [lit "'a''b'"] ∧
    (sqlPieces true (lit "??") [.string (lit "a"), .string (lit "b")]).flatMap (Piece.atoms zeroFormat true none) =
      [lit "'a'", lit "'b'"] ∧
    interpolateSql zeroFormat 100 true none (lit "a ?") [.doubleValue 0x7ff0000000000000] (lit "old") =
      (.error (.invalidArgument "database double value must be finite"), lit "a ") := by
  refine ⟨fun quote hquote hmem => ?_, ?_, ?_, ?_, ?_⟩
  · obtain rfl : quote = 0x3f := List.eq_of_mem_replicate (n := 2) hmem
    exact absurd hquote (by decide)
  all_goals decide +kernel

end Ruvia.Web
