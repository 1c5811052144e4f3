import Mathlib.Algebra.GroupWithZero.Nat
import Ruvia.Library.PrefixCodec

/-!
# `Web.RowsCodec` — the cached form of a result set

`encode_db_cache_rows` and `decode_db_cache_rows` of `db_query_cache.cpp`. The counts and lengths of an entry are
64-bit numbers that another writer of the store may have chosen. So the decoder is written with every access and
every size computation checked: an access outside the entry and a product beyond 64 bits have results of their
own (`DbCacheFault`), which no entry leads to (`decode_failsIn`).
-/

namespace Ruvia.Web

open Library
open FailsIn

/-! ## Results -/

structure DbRows where
  columnNames : List Bytes
  rows : List (List (Option Bytes))
  deriving DecidableEq, Repr

inductive DbConversionCode where
  | invalidFormat
  deriving DecidableEq, Repr

/-- `thrown` is a `db_conversion_error`, `lengthError` that of a string beyond its largest size. The other two
stand for an access outside the entry and for arithmetic that wraps. -/
inductive DbCacheFault where
  | thrown (code : DbConversionCode) (message : String)
  | lengthError
  | outOfBounds
  | overflow
  deriving DecidableEq, Repr

/-- `std::uint64_t` and `std::size_t`. -/
def sizeLimit : Nat := 2 ^ 64

/-- A string of the program: its size is a `std::size_t`. -/
structure PmrString where
  bytes : Bytes
  size_lt : bytes.length < sizeLimit

def invalidCache {α : Type} : Except DbCacheFault α :=
  .error (.thrown .invalidFormat "invalid database query cache entry")

/-! ## Writing -/

/-- Eight bytes, the low one first. -/
def number (value : Nat) : Bytes :=
  (List.range 8).map fun index => UInt8.ofNat ((value >>> (index * 8)) &&& 255)

def text (value : Bytes) : Bytes := number value.length ++ value

/-- Leads every entry, so a value another writer put under a cache key is refused before it is decoded. -/
def dbCacheEntryMagic : Bytes := lit "RUVIAQC"

def dbCacheRowMarker : UInt8 := 2

/-- A presence byte, and the text of a field that is present. -/
def field : Option Bytes → Bytes
  | none => [0]
  | some value => 1 :: text value

def row (fields : List (Option Bytes)) : Bytes := dbCacheRowMarker :: fields.flatMap field

/-- The size reserved for an entry. -/
def totalBytes (result : DbRows) : Nat :=
  dbCacheEntryMagic.length + 8 + 8 + (result.columnNames.map fun name => 8 + name.length).sum +
    (result.rows.map fun fields =>
      1 + fields.length + (fields.map fun value => (value.map fun bytes => 8 + bytes.length).getD 0).sum).sum

def entryBytes (result : DbRows) : Bytes :=
  dbCacheEntryMagic ++ (number result.rows.length ++ (number result.columnNames.length ++
    (result.columnNames.flatMap text ++ result.rows.flatMap row)))

/-- All rows of a result share its schema; a row of another width is refused. -/
def encodeDbCacheRows (result : DbRows) : Except DbCacheFault Bytes :=
  if result.rows.any (·.length ≠ result.columnNames.length) then invalidCache
  else if sizeLimit ≤ totalBytes result then .error .lengthError
  else .ok (entryBytes result)

/-! ## Reading -/

/-- `bytes_[index]`. -/
def byteAt (bytes : Bytes) (index : Nat) : Except DbCacheFault UInt8 :=
  match bytes[index]? with
  | some byte => .ok byte
  | none => .error .outOfBounds

/-- `bytes_.remove_prefix`. -/
def removeFront (bytes : Bytes) (size : Nat) : Except DbCacheFault Bytes :=
  if size ≤ bytes.length then .ok (bytes.drop size) else .error .outOfBounds

def checked (value : Nat) : Except DbCacheFault Nat :=
  if value < sizeLimit then .ok value else .error .overflow

def numberLoop (bytes : Bytes) : List Nat → Nat → Except DbCacheFault Nat
  | [], value => .ok value
  | index :: more, value =>
    (byteAt bytes index).bind fun byte => numberLoop bytes more (value ||| byte.toNat <<< (index * 8))

def readNumber : Reader DbCacheFault Nat := fun bytes =>
  if bytes.length < 8 then invalidCache
  else (numberLoop bytes (List.range 8) 0).bind fun value =>
    (removeFront bytes 8).bind fun rest => .ok (value, rest)

def readText : Reader DbCacheFault Bytes := fun bytes =>
  (readNumber bytes).bind fun (size, bytes) =>
    if size > bytes.length then invalidCache
    else (removeFront bytes size).bind fun rest => .ok (bytes.take size, rest)

def readField : Reader DbCacheFault (Option Bytes) := fun bytes =>
  if bytes.isEmpty then invalidCache
  else (byteAt bytes 0).bind fun present => (removeFront bytes 1).bind fun bytes =>
    if present = 0 then .ok (none, bytes)
    else if present = 1 then (readText bytes).bind fun (value, rest) => .ok (some value, rest)
    else invalidCache

def readRow (columns : Nat) : Reader DbCacheFault (List (Option Bytes)) := fun bytes =>
  if bytes.isEmpty then invalidCache
  else (byteAt bytes 0).bind fun marker =>
    if marker ≠ dbCacheRowMarker then invalidCache
    else (removeFront bytes 1).bind fun bytes => times readField columns bytes

/-- Every row takes at least its marker and one presence byte per field, so the row count is bounded before rows
are reserved. -/
def decodeDbCacheRows (bytes : Bytes) : Except DbCacheFault DbRows :=
  if !dbCacheEntryMagic.isPrefixOf bytes then invalidCache
  else
    (removeFront bytes dbCacheEntryMagic.length).bind fun bytes =>
    (readNumber bytes).bind fun (count, bytes) =>
    (readNumber bytes).bind fun (columns, bytes) =>
    if columns > bytes.length / 8 then invalidCache
    else
      (times readText columns bytes).bind fun (names, bytes) =>
      (checked (columns + 1)).bind fun perRow =>
      if count > bytes.length / perRow then invalidCache
      else
        -- the fields are reserved for all rows at once
        (checked (count * columns)).bind fun _ =>
        (times (readRow columns) count bytes).bind fun (rows, bytes) =>
        if !bytes.isEmpty then invalidCache else .ok { columnNames := names, rows := rows }

/-! ## Numbers -/

theorem or_shift {a b k : Nat} (h : a < 2 ^ k) : a ||| b <<< k = a + b * 2 ^ k := by
  rw [Nat.or_comm, ← Nat.shiftLeft_add_eq_or_of_lt h, Nat.shiftLeft_eq, Nat.add_comm]

/-- The number eight bytes stand for. -/
def eightBytes (b₀ b₁ b₂ b₃ b₄ b₅ b₆ b₇ : UInt8) : Nat :=
  b₀.toNat + b₁.toNat * 2 ^ 8 + b₂.toNat * 2 ^ 16 + b₃.toNat * 2 ^ 24 + b₄.toNat * 2 ^ 32 + b₅.toNat * 2 ^ 40 +
    b₆.toNat * 2 ^ 48 + b₇.toNat * 2 ^ 56

theorem readNumber_cons (b₀ b₁ b₂ b₃ b₄ b₅ b₆ b₇ : UInt8) (rest : Bytes) :
    readNumber (b₀ :: b₁ :: b₂ :: b₃ :: b₄ :: b₅ :: b₆ :: b₇ :: rest) =
      .ok (eightBytes b₀ b₁ b₂ b₃ b₄ b₅ b₆ b₇, rest) := by
  have h₀ := b₀.toNat_lt
  have h₁ := b₁.toNat_lt
  have h₂ := b₂.toNat_lt
  have h₃ := b₃.toNat_lt
  have h₄ := b₄.toNat_lt
  have h₅ := b₅.toNat_lt
  have h₆ := b₆.toNat_lt
  have h₇ := b₇.toNat_lt
  have hloop : numberLoop (b₀ :: b₁ :: b₂ :: b₃ :: b₄ :: b₅ :: b₆ :: b₇ :: rest) (List.range 8) 0 =
      .ok (0 ||| b₀.toNat <<< 0 ||| b₁.toNat <<< 8 ||| b₂.toNat <<< 16 ||| b₃.toNat <<< 24 ||| b₄.toNat <<< 32 |||
        b₅.toNat <<< 40 ||| b₆.toNat <<< 48 ||| b₇.toNat <<< 56) := rfl
  have hvalue : 0 ||| b₀.toNat <<< 0 ||| b₁.toNat <<< 8 ||| b₂.toNat <<< 16 ||| b₃.toNat <<< 24 |||
      b₄.toNat <<< 32 ||| b₅.toNat <<< 40 ||| b₆.toNat <<< 48 ||| b₇.toNat <<< 56 =
      eightBytes b₀ b₁ b₂ b₃ b₄ b₅ b₆ b₇ := by
    simp (disch := omega) only [Nat.zero_or, Nat.shiftLeft_zero, or_shift]
    rfl
  have hlength : ¬ (b₀ :: b₁ :: b₂ :: b₃ :: b₄ :: b₅ :: b₆ :: b₇ :: rest).length < 8 := by
    simp only [List.length_cons]
    omega
  rw [readNumber, if_neg hlength, hloop, hvalue]
  simp [removeFront, Except.bind]

theorem number_eightBytes (b₀ b₁ b₂ b₃ b₄ b₅ b₆ b₇ : UInt8) :
    number (eightBytes b₀ b₁ b₂ b₃ b₄ b₅ b₆ b₇) = [b₀, b₁, b₂, b₃, b₄, b₅, b₆, b₇] := by
  have h₀ := b₀.toNat_lt
  have h₁ := b₁.toNat_lt
  have h₂ := b₂.toNat_lt
  have h₃ := b₃.toNat_lt
  have h₄ := b₄.toNat_lt
  have h₅ := b₅.toNat_lt
  have h₆ := b₆.toNat_lt
  have h₇ := b₇.toNat_lt
  have hbyte : ∀ (k : Nat) (b : UInt8), (eightBytes b₀ b₁ b₂ b₃ b₄ b₅ b₆ b₇ >>> k) % 2 ^ 8 = b.toNat →
      UInt8.ofNat ((eightBytes b₀ b₁ b₂ b₃ b₄ b₅ b₆ b₇ >>> k) &&& 255) = b := by
    intro k b hb
    rw [show (255 : Nat) = 2 ^ 8 - 1 from rfl, Nat.and_two_pow_sub_one_eq_mod, hb]
    exact UInt8.ofNat_toNat
  rw [number, show List.range 8 = [0, 1, 2, 3, 4, 5, 6, 7] from rfl]
  simp only [List.map_cons, List.map_nil]
  rw [hbyte _ b₀, hbyte _ b₁, hbyte _ b₂, hbyte _ b₃, hbyte _ b₄, hbyte _ b₅, hbyte _ b₆, hbyte _ b₇]
  all_goals rw [Nat.shiftRight_eq_div_pow, eightBytes]; omega

theorem number_length (value : Nat) : (number value).length = 8 := by
  rw [number, List.length_map, List.length_range]

variable {value : Nat}

/-- A 64-bit number is the eight bytes written for it. -/
theorem exists_eightBytes (h : value < sizeLimit) :
    ∃ b₀ b₁ b₂ b₃ b₄ b₅ b₆ b₇, value = eightBytes b₀ b₁ b₂ b₃ b₄ b₅ b₆ b₇ := by
  have hbyte : ∀ k, (UInt8.ofNat (value / 2 ^ k)).toNat = value / 2 ^ k % 2 ^ 8 := fun k => UInt8.toNat_ofNat'
  refine ⟨.ofNat (value / 2 ^ 0), .ofNat (value / 2 ^ 8), .ofNat (value / 2 ^ 16), .ofNat (value / 2 ^ 24),
    .ofNat (value / 2 ^ 32), .ofNat (value / 2 ^ 40), .ofNat (value / 2 ^ 48), .ofNat (value / 2 ^ 56), ?_⟩
  rw [eightBytes, hbyte, hbyte, hbyte, hbyte, hbyte, hbyte, hbyte, hbyte]
  rw [sizeLimit] at h
  omega

theorem eightBytes_lt (b₀ b₁ b₂ b₃ b₄ b₅ b₆ b₇ : UInt8) : eightBytes b₀ b₁ b₂ b₃ b₄ b₅ b₆ b₇ < sizeLimit := by
  have h₀ := b₀.toNat_lt
  have h₁ := b₁.toNat_lt
  have h₂ := b₂.toNat_lt
  have h₃ := b₃.toNat_lt
  have h₄ := b₄.toNat_lt
  have h₅ := b₅.toNat_lt
  have h₆ := b₆.toNat_lt
  have h₇ := b₇.toNat_lt
  rw [eightBytes, sizeLimit]
  omega

theorem readNumber_inverts : Inverts readNumber number (· < sizeLimit) := by
  intro bytes value rest
  constructor
  · intro h
    match bytes with
    | b₀ :: b₁ :: b₂ :: b₃ :: b₄ :: b₅ :: b₆ :: b₇ :: tail =>
      rw [readNumber_cons] at h
      cases h
      exact ⟨eightBytes_lt b₀ b₁ b₂ b₃ b₄ b₅ b₆ b₇, by rw [number_eightBytes]; rfl⟩
    | [] | [_] | [_, _] | [_, _, _] | [_, _, _, _] | [_, _, _, _, _] | [_, _, _, _, _, _]
    | [_, _, _, _, _, _, _] => cases h
  · rintro ⟨hvalue, rfl⟩
    obtain ⟨b₀, b₁, b₂, b₃, b₄, b₅, b₆, b₇, rfl⟩ := exists_eightBytes hvalue
    rw [number_eightBytes]
    exact readNumber_cons b₀ b₁ b₂ b₃ b₄ b₅ b₆ b₇ rest

/-! ## Texts, fields and rows -/

variable {bytes : Bytes}

theorem removeFront_ok {size : Nat} (h : size ≤ bytes.length) :
    removeFront bytes size = .ok (bytes.drop size) := if_pos h

theorem readText_inverts : Inverts readText text (·.length < sizeLimit) := by
  intro bytes value rest
  rw [readText, readNumber_inverts.bind]
  constructor
  · rintro ⟨size, next, hsize, rfl, h⟩
    dsimp only at h
    split at h
    · cases h
    · rename_i hle
      rw [removeFront_ok (by omega)] at h
      cases h
      have hlength : (next.take size).length = size := List.length_take_of_le (by omega)
      refine ⟨show (next.take size).length < sizeLimit by rwa [hlength], ?_⟩
      rw [text, hlength, List.append_assoc, List.take_append_drop]
  · rintro ⟨hvalue, rfl⟩
    refine ⟨value.length, value ++ rest, hvalue, List.append_assoc _ _ _, ?_⟩
    have hle : ¬ value.length > (value ++ rest).length := by
      rw [List.length_append]
      omega
    dsimp only
    rw [if_neg hle, removeFront_ok (by omega), List.drop_left, List.take_left]
    rfl

theorem text_length (value : Bytes) : (text value).length = 8 + value.length := by
  rw [text, List.length_append, number_length]

/-- A present field has a length of 64 bits. -/
def FieldFits (value : Option Bytes) : Prop := ∀ bytes, value = some bytes → bytes.length < sizeLimit

theorem readField_inverts : Inverts readField field FieldFits := by
  intro bytes value rest
  cases bytes with
  | nil =>
    constructor
    · intro h
      cases h
    · rintro ⟨-, h⟩
      cases value <;> cases h
  | cons present tail =>
    have hread : readField (present :: tail) =
        if present = 0 then .ok (none, tail)
        else if present = 1 then (readText tail).bind fun (value, rest) => .ok (some value, rest)
        else invalidCache := by
      rfl
    rw [hread]
    by_cases hzero : present = 0
    · subst hzero
      rw [if_pos rfl, Except.ok.injEq, Prod.mk.injEq]
      constructor
      · rintro ⟨rfl, rfl⟩
        exact ⟨nofun, rfl⟩
      · rintro ⟨-, h⟩
        cases value with
        | none => exact ⟨rfl, (List.cons.inj h).2⟩
        | some value => exact absurd (List.cons.inj h).1 (by decide)
    · rw [if_neg hzero]
      by_cases hone : present = 1
      · subst hone
        rw [if_pos rfl, readText_inverts.bind]
        constructor
        · rintro ⟨bytes, next, hfits, rfl, h⟩
          cases h
          refine ⟨fun other hother => ?_, rfl⟩
          cases hother
          exact hfits
        · rintro ⟨hfits, h⟩
          cases value with
          | none => exact absurd (List.cons.inj h).1 (by decide)
          | some value => exact ⟨value, rest, hfits value rfl, (List.cons.inj h).2, rfl⟩
      · rw [if_neg hone]
        constructor
        · intro h
          cases h
        · rintro ⟨-, h⟩
          cases value with
          | none => exact absurd (List.cons.inj h).1 hzero
          | some value => exact absurd (List.cons.inj h).1 hone

theorem field_length (value : Option Bytes) :
    (field value).length = 1 + (value.map fun bytes => 8 + bytes.length).getD 0 := by
  cases value with
  | none => rfl
  | some bytes =>
    rw [field, List.length_cons, text_length]
    exact Nat.add_comm _ _

theorem readRow_inverts (columns : Nat) :
    Inverts (readRow columns) row fun fields => fields.length = columns ∧ ∀ value ∈ fields, FieldFits value := by
  intro bytes fields rest
  cases bytes with
  | nil =>
    constructor
    · intro h
      cases h
    · rintro ⟨-, h⟩
      cases h
  | cons marker tail =>
    have hread : readRow columns (marker :: tail) =
        if marker ≠ dbCacheRowMarker then invalidCache else times readField columns tail := by
      rfl
    rw [hread]
    split
    · rename_i hmarker
      constructor
      · intro h
        cases h
      · rintro ⟨-, h⟩
        exact absurd (List.cons.inj h).1 hmarker
    · rename_i hmarker
      rw [readField_inverts.times columns tail fields rest, show marker = dbCacheRowMarker from not_not.mp hmarker]
      refine and_congr_right fun _ => ?_
      rw [row, List.cons_append, List.cons.injEq]
      exact (and_iff_right rfl).symm

theorem row_length_ge (fields : List (Option Bytes)) : fields.length + 1 ≤ (row fields).length := by
  have hfield : ∀ value ∈ fields, 1 ≤ (field value).length := by
    intro value _
    rw [field_length]
    exact Nat.le_add_right _ _
  have hfields := length_flatMap_ge hfield
  rw [row, List.length_cons]
  omega

/-! ## Entries -/

/-- What is reserved is what is written. -/
theorem totalBytes_eq (result : DbRows) : totalBytes result = (entryBytes result).length := by
  have hnames : (result.columnNames.flatMap text).length =
      (result.columnNames.map fun name => 8 + name.length).sum := by
    rw [List.length_flatMap]
    exact congrArg List.sum (List.map_congr_left fun name _ => text_length name)
  have hrow : ∀ fields : List (Option Bytes), (row fields).length =
      1 + fields.length + (fields.map fun value => (value.map fun bytes => 8 + bytes.length).getD 0).sum := by
    intro fields
    rw [row, List.length_cons]
    induction fields with
    | nil => rfl
    | cons value fields ih =>
      rw [List.flatMap_cons, List.length_append, field_length, List.length_cons, List.map_cons, List.sum_cons]
      omega
  have hrows : (result.rows.flatMap row).length = (result.rows.map fun fields => 1 + fields.length +
      (fields.map fun value => (value.map fun bytes => 8 + bytes.length).getD 0).sum).sum := by
    rw [List.length_flatMap]
    exact congrArg List.sum (List.map_congr_left fun fields _ => hrow fields)
  rw [entryBytes, totalBytes]
  simp only [List.length_append, number_length]
  omega

/-- The rows of a result share its schema. -/
def Rectangular (result : DbRows) : Prop := ∀ fields ∈ result.rows, fields.length = result.columnNames.length

variable {result : DbRows}

theorem encodeDbCacheRows_eq_ok_iff :
    encodeDbCacheRows result = .ok bytes ↔
      Rectangular result ∧ (entryBytes result).length < sizeLimit ∧ bytes = entryBytes result := by
  have hany : (result.rows.any (·.length ≠ result.columnNames.length)) = true ↔ ¬ Rectangular result := by
    rw [List.any_eq_true, Rectangular]
    simp
  rw [encodeDbCacheRows, totalBytes_eq]
  split
  · rename_i h
    constructor
    · intro hbytes
      cases hbytes
    · rintro ⟨hrect, -⟩
      exact absurd hrect (hany.mp h)
  · rename_i h
    have hrect : Rectangular result := by
      by_contra hnot
      exact h (hany.mpr hnot)
    split
    · rename_i hlimit
      constructor
      · intro hbytes
        cases hbytes
      · rintro ⟨-, hlt, -⟩
        omega
    · rename_i hlimit
      rw [Except.ok.injEq]
      constructor
      · intro hbytes
        exact ⟨hrect, by omega, hbytes.symm⟩
      · rintro ⟨-, -, hbytes⟩
        exact hbytes.symm

/-- What every part of an entry that fits into a string satisfies. -/
theorem entry_fits (h : (entryBytes result).length < sizeLimit) :
    (∀ name ∈ result.columnNames, name.length < sizeLimit) ∧
      ∀ fields ∈ result.rows, ∀ value ∈ fields, FieldFits value := by
  have hlength : (entryBytes result).length = dbCacheEntryMagic.length + (8 + (8 +
      ((result.columnNames.flatMap text).length + (result.rows.flatMap row).length))) := by
    rw [entryBytes]
    simp only [List.length_append, number_length]
  constructor
  · intro name hname
    have hle : (text name).length ≤ (result.columnNames.flatMap text).length :=
      length_le_flatMap hname
    rw [text_length] at hle
    omega
  · intro fields hfields value hvalue bytes hbytes
    subst hbytes
    have hrow : (row fields).length ≤ (result.rows.flatMap row).length :=
      length_le_flatMap hfields
    have hfield : (field (some bytes)).length ≤ (fields.flatMap field).length :=
      length_le_flatMap hvalue
    rw [row, List.length_cons] at hrow
    rw [field_length] at hfield
    simp only [Option.map_some, Option.getD_some] at hfield
    omega

theorem checked_ok (h : value < sizeLimit) : checked value = .ok value := if_pos h

theorem isPrefixOf_iff_append {front : Bytes} : front.isPrefixOf bytes = true ↔ ∃ rest, bytes = front ++ rest := by
  rw [List.isPrefixOf_iff_prefix]
  exact ⟨fun ⟨rest, h⟩ => ⟨rest, h.symm⟩, fun ⟨rest, h⟩ => ⟨rest, h.symm⟩⟩

/-- **The decoder accepts exactly the entries of rectangular results.** -/
theorem decodeDbCacheRows_eq_ok_iff (hbytes : bytes.length < sizeLimit) :
    decodeDbCacheRows bytes = .ok result ↔ Rectangular result ∧ bytes = entryBytes result := by
  rw [decodeDbCacheRows]
  constructor
  · intro h
    split at h
    · cases h
    · rename_i hmagic
      obtain ⟨body, hbody⟩ := isPrefixOf_iff_append.mp (by simpa using hmagic)
      rw [hbody, removeFront_ok (by rw [List.length_append]; omega), List.drop_left, ok_bind] at h
      obtain ⟨count, body₁, hcount, hbody₁, h₁⟩ := readNumber_inverts.bind.mp h
      obtain ⟨columns, body₂, hcolumns, hbody₂, h₂⟩ := readNumber_inverts.bind.mp h₁
      dsimp only at h₂
      split at h₂
      · cases h₂
      · obtain ⟨names, body₃, ⟨hnames, -⟩, hbody₃, h₃⟩ := (readText_inverts.times columns).bind.mp h₂
        obtain ⟨perRow, -, h₄⟩ := bind_eq_ok_iff.mp h₃
        split at h₄
        · cases h₄
        · obtain ⟨_, -, h₅⟩ := bind_eq_ok_iff.mp h₄
          obtain ⟨rows, body₄, ⟨hrows, hall⟩, hbody₄, h₆⟩ := ((readRow_inverts columns).times count).bind.mp h₅
          split at h₆
          · cases h₆
          · rename_i hempty
            cases h₆
            have hend : body₄ = [] := by simpa using hempty
            subst hend hnames hrows
            refine ⟨fun fields hfields => (hall fields hfields).1, ?_⟩
            have hlast : body₃ = rows.flatMap row := hbody₄.trans (List.append_nil _)
            rw [hbody, hbody₁, hbody₂, hbody₃, hlast]
            rfl
  · rintro ⟨hrect, rfl⟩
    obtain ⟨hnames, hfields⟩ := entry_fits hbytes
    have hlength : (entryBytes result).length = dbCacheEntryMagic.length + (8 + (8 +
        ((result.columnNames.flatMap text).length + (result.rows.flatMap row).length))) := by
      rw [entryBytes]
      simp only [List.length_append, number_length]
    have hnamesLength : result.columnNames.length * 8 ≤ (result.columnNames.flatMap text).length :=
      length_flatMap_ge fun name _ => by
        rw [text_length]
        exact Nat.le_add_right _ _
    have hrowsLength : result.rows.length * (result.columnNames.length + 1) ≤ (result.rows.flatMap row).length :=
      length_flatMap_ge fun fields hmem => by
        rw [← hrect fields hmem]
        exact row_length_ge fields
    have hproduct : result.rows.length * result.columnNames.length ≤
        result.rows.length * (result.columnNames.length + 1) := Nat.mul_le_mul_left _ (Nat.le_succ _)
    have hcount : result.rows.length ≤ result.rows.length * (result.columnNames.length + 1) :=
      Nat.le_mul_of_pos_right _ (Nat.succ_pos _)
    have hmagic : dbCacheEntryMagic.isPrefixOf (entryBytes result) = true :=
      isPrefixOf_iff_append.mpr ⟨_, rfl⟩
    have hcolumns : ¬ result.columnNames.length >
        (result.columnNames.flatMap text ++ result.rows.flatMap row).length / 8 := by
      rw [List.length_append, gt_iff_lt, not_lt, Nat.le_div_iff_mul_le (by omega)]
      omega
    have hrowCount : ¬ result.rows.length > (result.rows.flatMap row).length / (result.columnNames.length + 1) := by
      rw [gt_iff_lt, not_lt, Nat.le_div_iff_mul_le (Nat.succ_pos _)]
      exact hrowsLength
    rw [if_neg (by rw [hmagic]; decide), removeFront_ok (by omega), entryBytes, List.drop_left, ok_bind,
      readNumber_inverts.bind]
    refine ⟨result.rows.length, _, by omega, rfl, readNumber_inverts.bind.mpr
      ⟨result.columnNames.length, _, by omega, rfl, ?_⟩⟩
    dsimp only
    rw [if_neg hcolumns]
    refine (readText_inverts.times result.columnNames.length).bind.mpr
      ⟨result.columnNames, result.rows.flatMap row, ⟨rfl, hnames⟩, rfl, ?_⟩
    rw [checked_ok (by omega), ok_bind, if_neg hrowCount, checked_ok (by omega), ok_bind]
    exact ((readRow_inverts result.columnNames.length).times result.rows.length).bind.mpr
      ⟨result.rows, [], ⟨rfl, fun fields hmem => ⟨hrect fields hmem, hfields fields hmem⟩⟩,
        (List.append_nil _).symm, rfl⟩

/-! ## What corrupt entries lead to -/

/-- The error of a refused entry. -/
def InvalidCache (fault : DbCacheFault) : Prop :=
  fault = .thrown .invalidFormat "invalid database query cache entry"

theorem failsIn_invalidCache {α : Type} : FailsIn InvalidCache (invalidCache : Except DbCacheFault α) :=
  error rfl

theorem removeFront_failsIn {size : Nat} (h : size ≤ bytes.length) :
    FailsIn InvalidCache (removeFront bytes size) := by
  rw [removeFront_ok h]
  exact ok _

theorem byteAt_failsIn {index : Nat} (h : index < bytes.length) : FailsIn InvalidCache (byteAt bytes index) := by
  rw [byteAt, List.getElem?_eq_getElem h]
  exact ok _

theorem numberLoop_failsIn {indices : List Nat} (h : ∀ index ∈ indices, index < bytes.length) (value : Nat) :
    FailsIn InvalidCache (numberLoop bytes indices value) := by
  induction indices generalizing value with
  | nil => exact ok _
  | cons index more ih =>
    refine (byteAt_failsIn (h index List.mem_cons_self)).bind fun byte _ => ?_
    exact ih (fun other hother => h other (List.mem_cons_of_mem index hother)) _

theorem readNumber_failsIn (bytes : Bytes) : FailsIn InvalidCache (readNumber bytes) := by
  refine ite rfl fun hlength => ?_
  have hindices : ∀ index ∈ List.range 8, index < bytes.length := fun index hindex => by
    rw [List.mem_range] at hindex
    omega
  refine (numberLoop_failsIn hindices 0).bind fun value _ => ?_
  exact (removeFront_failsIn (by omega)).bind fun rest _ => ok _

theorem readText_failsIn (bytes : Bytes) : FailsIn InvalidCache (readText bytes) := by
  refine (readNumber_failsIn bytes).bind fun taken _ => ite rfl fun hsize => ?_
  exact (removeFront_failsIn (by omega)).bind fun rest _ => ok _

theorem isEmpty_pos (h : ¬ bytes.isEmpty = true) : 0 < bytes.length := by
  cases bytes with
  | nil => exact absurd rfl h
  | cons => exact Nat.succ_pos _

theorem readField_failsIn (bytes : Bytes) : FailsIn InvalidCache (readField bytes) := by
  refine ite rfl fun hempty => ?_
  refine (byteAt_failsIn (isEmpty_pos hempty)).bind fun present _ => ?_
  refine (removeFront_failsIn (isEmpty_pos hempty)).bind fun tail _ => ?_
  split
  · exact ok _
  · split
    · exact (readText_failsIn tail).bind fun taken _ => ok _
    · exact failsIn_invalidCache

theorem readRow_failsIn (columns : Nat) (bytes : Bytes) : FailsIn InvalidCache (readRow columns bytes) := by
  refine ite rfl fun hempty => ?_
  refine (byteAt_failsIn (isEmpty_pos hempty)).bind fun marker _ => ite rfl fun _ => ?_
  exact (removeFront_failsIn (isEmpty_pos hempty)).bind fun tail _ => times readField_failsIn columns tail

theorem checked_failsIn (h : value < sizeLimit) : FailsIn InvalidCache (checked value) := by
  rw [checked_ok h]
  exact ok _

/-- **No entry leads the decoder outside it, and no size it computes wraps**: it yields a result or refuses. -/
theorem decode_failsIn (hbytes : bytes.length < sizeLimit) : FailsIn InvalidCache (decodeDbCacheRows bytes) := by
  refine ite rfl fun hmagic => ?_
  obtain ⟨body, rfl⟩ := isPrefixOf_iff_append.mp (by simpa using hmagic)
  rw [List.length_append] at hbytes
  rw [removeFront_ok (by rw [List.length_append]; omega), List.drop_left, ok_bind]
  refine (readNumber_failsIn body).bind fun (count, body₁) hcount => ?_
  refine (readNumber_failsIn body₁).bind fun (columns, body₂) hcolumns => ite rfl fun hfit => ?_
  refine (times readText_failsIn columns body₂).bind fun (names, body₃) hnames => ?_
  have hle₁ := readNumber_inverts.length_le hcount
  have hle₂ := readNumber_inverts.length_le hcolumns
  have hle₃ := (readText_inverts.times columns).length_le hnames
  have hdiv : body₂.length / 8 ≤ body₂.length / 2 := Nat.div_le_div_left (by omega) (by omega)
  have hperRow : columns + 1 < sizeLimit := by
    rw [sizeLimit] at hbytes ⊢
    omega
  refine (checked_failsIn hperRow).bind fun perRow hchecked => ite rfl fun hcount' => ?_
  rw [checked_ok hperRow, Except.ok.injEq] at hchecked
  subst hchecked
  have hproduct : count * columns < sizeLimit := by
    have hle : count * (columns + 1) ≤ body₃.length := by
      rw [gt_iff_lt, not_lt, Nat.le_div_iff_mul_le (Nat.succ_pos _)] at hcount'
      exact hcount'
    have hmul : count * columns ≤ count * (columns + 1) := Nat.mul_le_mul_left _ (Nat.le_succ _)
    omega
  refine (checked_failsIn hproduct).bind fun _ _ => ?_
  refine (times (readRow_failsIn columns) count body₃).bind fun (rows, body₄) _ => ?_
  exact ite rfl fun _ => ok _

/-! ## The codec -/

/-- **The codec of cached rows.** A rectangular result that fits into a string has an entry. A string is the entry
of a result exactly when it decodes to that result, so no two strings mean the same rows. Every other string is
refused. -/
theorem rows_codec :
    (∀ result, Rectangular result → totalBytes result < sizeLimit →
      ∃ entry : PmrString, encodeDbCacheRows result = .ok entry.bytes ∧
        decodeDbCacheRows entry.bytes = .ok result) ∧
    (∀ (result : DbRows) (entry : PmrString),
      encodeDbCacheRows result = .ok entry.bytes ↔ decodeDbCacheRows entry.bytes = .ok result) ∧
    (∀ (result : DbRows) (first second : PmrString), decodeDbCacheRows first.bytes = .ok result →
      decodeDbCacheRows second.bytes = .ok result → first.bytes = second.bytes) ∧
    ∀ (entry : PmrString) (fault : DbCacheFault),
      decodeDbCacheRows entry.bytes = .error fault → InvalidCache fault := by
  have hround : ∀ (result : DbRows) (entry : PmrString),
      encodeDbCacheRows result = .ok entry.bytes ↔ decodeDbCacheRows entry.bytes = .ok result := by
    intro result entry
    rw [encodeDbCacheRows_eq_ok_iff, decodeDbCacheRows_eq_ok_iff entry.size_lt]
    constructor
    · rintro ⟨hrect, -, hbytes⟩
      exact ⟨hrect, hbytes⟩
    · rintro ⟨hrect, hbytes⟩
      exact ⟨hrect, hbytes ▸ entry.size_lt, hbytes⟩
  refine ⟨fun result hrect htotal => ?_, hround, fun result first second hfirst hsecond => ?_,
    fun entry => decode_failsIn entry.size_lt⟩
  · rw [totalBytes_eq] at htotal
    have hok := encodeDbCacheRows_eq_ok_iff.mpr ⟨hrect, htotal, rfl⟩
    exact ⟨⟨_, htotal⟩, hok, (hround result ⟨_, htotal⟩).mp hok⟩
  · rw [((decodeDbCacheRows_eq_ok_iff first.size_lt).mp hfirst).2,
      ((decodeDbCacheRows_eq_ok_iff second.size_lt).mp hsecond).2]

/-- Two rows of two columns, with a null and an empty field. -/
theorem rows_codec_nulls : ∃ entry : PmrString, decodeDbCacheRows entry.bytes =
    .ok { columnNames := [lit "id", lit "name"], rows := [[some (lit "7"), none], [some [], some (lit "x")]] } := by
  obtain ⟨entry, -, hdecode⟩ := rows_codec.1
    { columnNames := [lit "id", lit "name"], rows := [[some (lit "7"), none], [some [], some (lit "x")]] }
    (by unfold Rectangular; decide) (by decide)
  exact ⟨entry, hdecode⟩

end Ruvia.Web
