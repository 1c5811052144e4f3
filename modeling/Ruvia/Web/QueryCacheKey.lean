import Ruvia.Web.QueryCache
import Ruvia.Web.RowsCodec
import Ruvia.Web.SqlQuoting

/-!
# `Web.QueryCacheKey` — the keys of cached results

`db_cache_key` of `db_query_cache.cpp`. SHA-256 is a parameter: what is fed to it in pieces is one byte string, the
preimage. The preimage of a statement delimits its fields (`statementPreimage_injective`), so two statements share a
key only through a collision of the digest itself, and so do two ids (`cache_keys`).
-/

namespace Ruvia.Web

open Library

/-- The driver as the digest takes it. -/
def driverNumber : DbDriver → Nat
  | .unspecified => 0
  | .mariadb => 1
  | .postgresql => 2

/-- The `db_value_type` of a value. -/
def valueTypeByte : DbValue → UInt8
  | .null => 0
  | .string _ => 1
  | .signedValue _ => 2
  | .unsignedValue _ => 3
  | .doubleValue _ => 4
  | .boolValue _ => 5

/-- What is digested of a value behind its type. -/
def valuePayload : DbValue → Bytes
  | .null => []
  | .string bytes => text bytes
  | .signedValue value => number value.toUInt64.toNat
  | .unsignedValue value => number value.toNat
  | .doubleValue bits => number bits.toNat
  | .boolValue value => number value.toNat

def valuePreimage (value : DbValue) : Bytes := valueTypeByte value :: valuePayload value

/-- A text of the program: its size is a `std::size_t`. -/
def DbValue.Fits : DbValue → Prop
  | .string bytes => bytes.length < sizeLimit
  | _ => True

/-- A statement with its parameters; every size in it is a `std::size_t`. -/
structure DbStatement where
  driver : DbDriver
  sql : Bytes
  params : List DbValue
  sql_lt : sql.length < sizeLimit
  params_lt : params.length < sizeLimit
  params_fit : ∀ value ∈ params, value.Fits

/-- What `db_cache_key` feeds to the digest for a statement without an id. -/
def statementPreimage (statement : DbStatement) : Bytes :=
  number (driverNumber statement.driver) ++ text statement.sql ++ number statement.params.length ++
    statement.params.flatMap valuePreimage

/-- `db_sha256`: a digest of 32 bytes. -/
structure Sha256 where
  digest : Bytes → Bytes
  length_digest : ∀ bytes, (digest bytes).length = 32

variable (sha256 : Sha256)

/-- The key scheme of the cache whose keys begin with `front`. -/
def digestKeys (front : Bytes) : DbCacheKeys := ⟨front, fun id => Http.httpEncodeLowerHex (sha256.digest id)⟩

/-- `db_cache_key`. -/
def dbCacheKey (front id : Bytes) (shape : DbCacheShape) (statement : DbStatement) : Bytes :=
  (digestKeys sha256 front).dbCacheKey id shape (Http.httpEncodeLowerHex (sha256.digest (statementPreimage statement)))

/-! ## The preimage -/

variable {sha256}

theorem driverNumber_lt (driver : DbDriver) : driverNumber driver < sizeLimit := by
  cases driver <;> decide

theorem number_delimits : Delimits number (· < sizeLimit) := readNumber_inverts.delimits

theorem text_delimits : Delimits text (·.length < sizeLimit) := readText_inverts.delimits

/-- **A value is delimited** by its type and its own length. -/
theorem valuePreimage_delimits : Delimits valuePreimage DbValue.Fits := by
  intro value other rest more hvalue hother heq
  have htype := (List.cons.inj heq).1
  have hpayload := (List.cons.inj heq).2
  have hnumber : ∀ {n m : UInt64}, number n.toNat ++ rest = number m.toNat ++ more → n = m ∧ rest = more := by
    intro n m h
    obtain ⟨hnat, hrest⟩ := number_delimits _ _ _ _ n.toNat_lt m.toNat_lt h
    exact ⟨UInt64.toNat_inj.mp hnat, hrest⟩
  cases value <;> cases other <;> cases htype
  case null.null => exact ⟨rfl, hpayload⟩
  case string.string bytes others =>
    obtain ⟨rfl, hrest⟩ := text_delimits _ _ _ _ hvalue hother hpayload
    exact ⟨rfl, hrest⟩
  case signedValue.signedValue signed others =>
    obtain ⟨hbits, hrest⟩ := hnumber hpayload
    obtain ⟨others⟩ := others
    exact ⟨congrArg (fun bits => DbValue.signedValue ⟨bits⟩) hbits, hrest⟩
  case unsignedValue.unsignedValue unsigned others =>
    obtain ⟨rfl, hrest⟩ := hnumber hpayload
    exact ⟨rfl, hrest⟩
  case doubleValue.doubleValue bits others =>
    obtain ⟨rfl, hrest⟩ := hnumber hpayload
    exact ⟨rfl, hrest⟩
  case boolValue.boolValue flag others =>
    have hlt : ∀ flag : Bool, flag.toNat < sizeLimit := fun flag => by cases flag <;> decide
    obtain ⟨hnat, hrest⟩ := number_delimits _ _ _ _ (hlt _) (hlt _) hpayload
    have hflag : flag = others := by
      revert hnat
      cases flag <;> cases others <;> decide
    exact ⟨congrArg _ hflag, hrest⟩

/-- **Equal preimages are of equal statements.** -/
theorem statementPreimage_injective {statement other : DbStatement}
    (h : statementPreimage statement = statementPreimage other) : statement = other := by
  obtain ⟨driver, sql, params, hsql, hparams, hfit⟩ := statement
  obtain ⟨driver', sql', params', hsql', hparams', hfit'⟩ := other
  simp only [statementPreimage, List.append_assoc] at h
  obtain ⟨hdriver, hbehind⟩ := number_delimits _ _ _ _ (driverNumber_lt _) (driverNumber_lt _) h
  obtain ⟨rfl, hcounted⟩ := text_delimits _ _ _ _ hsql hsql' hbehind
  obtain ⟨hlength, hvalues⟩ := number_delimits _ _ _ _ hparams hparams' hcounted
  rw [← List.append_nil (params.flatMap _), ← List.append_nil (params'.flatMap _)] at hvalues
  obtain ⟨rfl, -⟩ := valuePreimage_delimits.flatMap hlength hfit hfit' hvalues
  cases driver <;> cases driver' <;> first | rfl | cases hdriver

/-! ## Keys -/

/-- Two inputs of the digest with one result. -/
def Collides (sha256 : Sha256) (bytes others : Bytes) : Prop :=
  bytes ≠ others ∧ sha256.digest bytes = sha256.digest others

theorem eq_or_collides {bytes others : Bytes} (h : sha256.digest bytes = sha256.digest others) :
    bytes = others ∨ Collides sha256 bytes others := by
  by_cases heq : bytes = others
  · exact .inl heq
  · exact .inr ⟨heq, h⟩

/-- Digests are the ends of their keys, and all of one length. -/
theorem digest_eq_of_append {front other bytes others : Bytes}
    (h : front ++ Http.httpEncodeLowerHex (sha256.digest bytes) =
      other ++ Http.httpEncodeLowerHex (sha256.digest others)) :
    front = other ∧ sha256.digest bytes = sha256.digest others := by
  have hlength : (Http.httpEncodeLowerHex (sha256.digest bytes)).length =
      (Http.httpEncodeLowerHex (sha256.digest others)).length := by
    rw [Http.length_httpEncodeLowerHex, Http.length_httpEncodeLowerHex, sha256.length_digest, sha256.length_digest]
  obtain ⟨hfront, hhex⟩ := List.append_inj' h hlength
  exact ⟨hfront, Http.httpEncodeLowerHex_injective hhex⟩

theorem dbCacheShapeTag_injective {shape other : DbCacheShape} (h : dbCacheShapeTag shape = dbCacheShapeTag other) :
    shape = other := by
  revert h
  cases shape <;> cases other <;> decide

/-- **Query-cache keys.** Equal preimages are of statements with equal driver, SQL text and typed parameters. So, in
one cache, two statements have one key only if they are the same statement or their preimages collide; two ids have
one key, for whatever shapes and statements, only if they are the same id and shape or the ids collide; and no key of
an id is the key of a statement without one. -/
theorem cache_keys (sha256 : Sha256) (front : Bytes) (statement other : DbStatement) (shape shape' : DbCacheShape) :
    (statementPreimage statement = statementPreimage other →
      statement.driver = other.driver ∧ statement.sql = other.sql ∧ statement.params = other.params) ∧
    (dbCacheKey sha256 front [] shape statement = dbCacheKey sha256 front [] shape' other →
      statement = other ∨ Collides sha256 (statementPreimage statement) (statementPreimage other)) ∧
    (∀ id id', id ≠ [] → id' ≠ [] →
      dbCacheKey sha256 front id shape statement = dbCacheKey sha256 front id' shape' other →
        shape = shape' ∧ (id = id' ∨ Collides sha256 id id')) ∧
    (∀ id, id ≠ [] → dbCacheKey sha256 front id shape statement ≠ dbCacheKey sha256 front [] shape' other) := by
  have hempty : ¬ ([] : Bytes) ≠ [] := fun h => h rfl
  refine ⟨fun h => ?_, fun h => ?_, fun id id' hid hid' h => ?_, fun id hid h => ?_⟩
  · obtain rfl := statementPreimage_injective h
    exact ⟨rfl, rfl, rfl⟩
  · simp only [dbCacheKey, DbCacheKeys.dbCacheKey, if_neg hempty] at h
    rcases eq_or_collides (digest_eq_of_append h).2 with heq | hcollides
    · exact .inl (statementPreimage_injective heq)
    · exact .inr hcollides
  · simp only [dbCacheKey, DbCacheKeys.dbCacheKey, if_pos hid, if_pos hid', DbCacheKeys.makeIdKey] at h
    obtain ⟨hfront, hdigest⟩ := digest_eq_of_append h
    have htag := (List.append_inj' hfront rfl).1
    exact ⟨dbCacheShapeTag_injective (List.append_cancel_left htag), eq_or_collides hdigest⟩
  · simp only [dbCacheKey, DbCacheKeys.dbCacheKey, if_pos hid, if_neg hempty, DbCacheKeys.makeIdKey] at h
    have hfront := (digest_eq_of_append h).1
    simp only [List.append_assoc] at hfront
    have hkind := List.append_cancel_left hfront
    cases (List.cons.inj hkind).1

end Ruvia.Web
