import Ruvia.Web.RedisQueryCompile
import Ruvia.Web.RedisSearchQuery

/-!
# `Web.RedisEntityStore` — entities as hashes, and what a query sees of them

`redis_repository::write`, `append_redis_entity_field` and the write script. A stored entity is what a run of writes
leaves; every column is then kept with its shadows (`StoredEntity.columns`). A query reads the hash through the
attributes of the index.
-/

namespace Ruvia.Web

open Library

/-! ## Writes -/

abbrev RedisHash := Bytes → Option Bytes

/-- One triple of the write script's arguments: `s field value` or `d field`. -/
inductive RedisWriteChange where
  | set (field value : Bytes)
  | delete (field : Bytes)

def RedisWriteChange.field : RedisWriteChange → Bytes
  | .set field _ => field
  | .delete field => field

/-- `HSET` or `HDEL`. -/
def RedisHash.apply (hash : RedisHash) : RedisWriteChange → RedisHash
  | .set field value => Function.update hash field (some value)
  | .delete field => Function.update hash field none

/-- The mark the write script leaves on an entity. -/
def entityMarker : Bytes := lit "__ruvia_entity"

/-- An accepted run of the write script. -/
def runWriteScript (hash : RedisHash) (changes : List RedisWriteChange) : RedisHash :=
  Function.update (changes.foldl RedisHash.apply hash) entityMarker (some (lit "1"))

section

variable (reader : NumberReader)

def requireExactNumericText (value : Bytes) : Except String Unit :=
  match reader.read value with
  | none => .error "numeric search values must be finite and within the exact integer range of Redis Search"
  | some number => requireRedisExactNumber number

def appendRedisEntityField (field : Bytes) (value : Option Bytes) (numericIndex tagShadowValue : Bool) :
    Except String (List RedisWriteChange) :=
  match value with
  | none => .ok ([.delete field, .delete (presentShadow ++ field)] ++
      if tagShadowValue then [.delete (tagShadow ++ field)] else [])
  | some value =>
    (if numericIndex then requireExactNumericText reader value else .ok ()).map fun () =>
      [.set field value, .set (presentShadow ++ field) presentValue] ++
        if tagShadowValue then [.set (tagShadow ++ field) (encodeRedisTag value)] else []

/-- The columns an entity object sets, to a value or to null. Its types give every column values of its kind. -/
structure RedisEntityChange (columns : List RedisColumnInfo) where
  change : Bytes → Option (Option RedisScalar)
  fits : ∀ column ∈ columns, ∀ value, change column.name = some (some value) → value.Fits column.kind

/-- One turn of the loop of `redis_repository::write` over the columns. -/
def writeColumn (change : Bytes → Option (Option RedisScalar)) (column : RedisColumnInfo × RedisIndexKind) :
    Except String (List RedisWriteChange) :=
  match change column.1.name with
  | none => .ok []
  | some value =>
    appendRedisEntityField reader column.1.name (value.map encodeRedisScalar)
      (!isTagShadowKind column.1.kind && column.2 == .numeric) (isTagShadowKind column.1.kind)

/-- What `redis_repository::write` passes to the write script. -/
def writeArguments (mapping : RedisMapping) (change : RedisEntityChange mapping.columns) :
    Except String (List RedisWriteChange) :=
  ((mapping.columns.zip mapping.columnIndexKinds).mapM (writeColumn reader change.change)).map List.flatten

/-- An entity behind a change: what is not set stays. -/
def RedisEntity.apply (entity : RedisEntity) (change : Bytes → Option (Option RedisScalar)) : RedisEntity :=
  fun name => (change name).getD (entity name)

/-- The hashes a run of writes leaves, and the entities they are of. -/
inductive StoredEntity (mapping : RedisMapping) : RedisHash → RedisEntity → Prop
  | fresh : StoredEntity mapping (fun _ => none) (fun _ => none)
  | written {hash : RedisHash} {entity : RedisEntity} {change : RedisEntityChange mapping.columns}
      {changes : List RedisWriteChange} : StoredEntity mapping hash entity →
      writeArguments reader mapping change = .ok changes →
      StoredEntity mapping (runWriteScript hash changes) (entity.apply change.change)

end

/-! ## Columns as they are kept -/

/-- A column in a hash, with its shadows. -/
structure ColumnStored (reader : NumberReader) (hash : RedisHash) (column : RedisColumnInfo × RedisIndexKind)
    (value : Option RedisScalar) : Prop where
  field : hash column.1.name = value.map encodeRedisScalar
  present : hash (presentShadow ++ column.1.name) = value.map fun _ => presentValue
  tag : isTagShadowKind column.1.kind = true →
    hash (tagShadow ++ column.1.name) = value.map fun value => encodeRedisTag (encodeRedisScalar value)
  exactly : isTagShadowKind column.1.kind = false → column.2 = .numeric → ∀ held, value = some held →
    ∃ number, reader.read (encodeRedisScalar held) = some number ∧ |number| ≤ redisMaxExactInteger
  fits : ∀ held, value = some held → held.Fits column.1.kind

/-- The hash fields of a column. -/
def columnFields (name : Bytes) : List Bytes := [name, presentShadow ++ name, tagShadow ++ name]

section

variable {reader : NumberReader} {hash : RedisHash} {mapping : RedisMapping} {entity : RedisEntity}
  {changes : List RedisWriteChange} {column : RedisColumnInfo × RedisIndexKind} {value : Option RedisScalar}

theorem apply_other {change : RedisWriteChange} {key : Bytes} (h : key ≠ change.field) :
    hash.apply change key = hash key := by
  cases change with
  | set field value | delete field => exact Function.update_of_ne h _ _

/-- Changes leave the other fields alone. -/
theorem applyAll_other {key : Bytes} (h : ∀ change ∈ changes, key ≠ change.field) :
    changes.foldl RedisHash.apply hash key = hash key := by
  induction changes generalizing hash with
  | nil => rfl
  | cons change changes ih =>
    rw [List.foldl_cons, ih fun other hother => h other (List.mem_cons_of_mem _ hother)]
    exact apply_other (h change List.mem_cons_self)

/-- A column is kept as long as its fields are. -/
theorem ColumnStored.congr {next : RedisHash} (h : ColumnStored reader hash column value)
    (heq : ∀ key ∈ columnFields column.1.name, next key = hash key) : ColumnStored reader next column value := by
  refine ⟨?_, ?_, fun htag => ?_, h.exactly, h.fits⟩
  · rw [heq _ List.mem_cons_self, h.field]
  · rw [heq _ (List.mem_cons_of_mem _ List.mem_cons_self), h.present]
  · rw [heq _ (List.mem_cons_of_mem _ (List.mem_cons_of_mem _ List.mem_cons_self)), h.tag htag]

/-- The change that leaves a field with a value, or without one. -/
def fieldChange (field : Bytes) : Option Bytes → RedisWriteChange
  | some value => .set field value
  | none => .delete field

@[simp] theorem field_fieldChange (field : Bytes) (value : Option Bytes) : (fieldChange field value).field = field := by
  cases value <;> rfl

@[simp] theorem apply_fieldChange (field : Bytes) (value : Option Bytes) :
    hash.apply (fieldChange field value) = Function.update hash field value := by
  cases value <;> rfl

/-- The changes of a column that is set. -/
def columnChanges (column : RedisColumnInfo) (value : Option RedisScalar) : List RedisWriteChange :=
  [fieldChange column.name (value.map encodeRedisScalar),
    fieldChange (presentShadow ++ column.name) (value.map fun _ => presentValue)] ++
  if isTagShadowKind column.kind then
    [fieldChange (tagShadow ++ column.name) (value.map fun value => encodeRedisTag (encodeRedisScalar value))]
  else []

variable {change : Bytes → Option (Option RedisScalar)}

/-- **What a turn of the write loop passes on.** -/
theorem writeColumn_ok (h : writeColumn reader change column = .ok changes) :
    (change column.1.name = none ∧ changes = []) ∨
      ∃ value, change column.1.name = some value ∧ changes = columnChanges column.1 value ∧
        (isTagShadowKind column.1.kind = false → column.2 = .numeric → ∀ held, value = some held →
          ∃ number, reader.read (encodeRedisScalar held) = some number ∧ |number| ≤ redisMaxExactInteger) := by
  rw [writeColumn] at h
  cases hchange : change column.1.name with
  | none =>
    rw [hchange] at h
    cases h
    exact .inl ⟨rfl, rfl⟩
  | some value =>
    rw [hchange] at h
    refine .inr ⟨value, rfl, ?_⟩
    cases value with
    | none =>
      cases h
      refine ⟨?_, fun _ _ held hheld => (by cases hheld)⟩
      rw [columnChanges]
      split <;> rfl
    | some held =>
      simp only [Option.map_some, appendRedisEntityField] at h
      generalize hrequire : (if (!isTagShadowKind column.1.kind && column.2 == .numeric) = true then
        requireExactNumericText reader (encodeRedisScalar held) else .ok ()) = required at h
      cases required with
      | error error => cases h
      | ok u =>
        cases h
        refine ⟨?_, fun htag hnumeric other hother => ?_⟩
        · rw [columnChanges]
          split <;> rfl
        · cases hother
          rw [htag, hnumeric, if_pos (by decide), requireExactNumericText] at hrequire
          split at hrequire
          · cases hrequire
          next number hread =>
            rw [requireRedisExactNumber] at hrequire
            split at hrequire
            · cases hrequire
            next hle => exact ⟨number, hread, not_lt.mp hle⟩

theorem field_of_mem_columnChanges {info : RedisColumnInfo} {change : RedisWriteChange}
    (h : change ∈ columnChanges info value) : change.field ∈ columnFields info.name := by
  rcases List.mem_append.mp h with h | h
  · rcases List.mem_cons.mp h with rfl | h
    · rw [field_fieldChange]
      exact List.mem_cons_self
    · rw [List.mem_singleton.mp h, field_fieldChange]
      exact List.mem_cons_of_mem _ List.mem_cons_self
  · split at h
    · rw [List.mem_singleton.mp h, field_fieldChange]
      exact List.mem_cons_of_mem _ (List.mem_cons_of_mem _ List.mem_cons_self)
    · cases h

theorem writeColumn_fields (h : writeColumn reader change column = .ok changes) :
    ∀ change ∈ changes, change.field ∈ columnFields column.1.name := by
  rcases writeColumn_ok h with ⟨-, rfl⟩ | ⟨value, -, rfl, -⟩
  · intro change hmem
    cases hmem
  · exact fun change hmem => field_of_mem_columnChanges hmem

/-! ## Fields apart -/

theorem presentShadow_reserved (name : Bytes) : reservedNamespace <+: presentShadow ++ name :=
  (show reservedNamespace <+: presentShadow from by decide).trans (List.prefix_append _ _)

theorem tagShadow_reserved (name : Bytes) : reservedNamespace <+: tagShadow ++ name :=
  (show reservedNamespace <+: tagShadow from by decide).trans (List.prefix_append _ _)

theorem shadows_ne (left right : Bytes) : presentShadow ++ left ≠ tagShadow ++ right := by
  intro heq
  have hat := congrArg (·[8]?) heq
  revert hat
  simp [presentShadow, tagShadow, lit]

theorem marker_ne (name : Bytes) : presentShadow ++ name ≠ entityMarker ∧ tagShadow ++ name ≠ entityMarker := by
  constructor <;>
  · intro heq
    have hat := congrArg (·[8]?) heq
    revert hat
    simp [presentShadow, tagShadow, entityMarker, lit]

/-- The fields of one column are none of another. -/
theorem columnFields_disjoint {left right key : Bytes} (hne : left ≠ right)
    (hleft : ¬ reservedNamespace <+: left) (hright : ¬ reservedNamespace <+: right)
    (hmem : key ∈ columnFields left) : key ∉ columnFields right := by
  intro hother
  simp only [columnFields, List.mem_cons, List.not_mem_nil, or_false] at hmem hother
  rcases hmem with rfl | rfl | rfl <;> rcases hother with heq | heq | heq
  · exact hne heq
  · exact hleft (heq ▸ presentShadow_reserved _)
  · exact hleft (heq ▸ tagShadow_reserved _)
  · exact hright (heq ▸ presentShadow_reserved _)
  · exact hne (List.append_cancel_left heq)
  · exact shadows_ne _ _ heq
  · exact hright (heq ▸ tagShadow_reserved _)
  · exact shadows_ne _ _ heq.symm
  · exact hne (List.append_cancel_left heq)

theorem entityMarker_not_mem {name : Bytes} (h : ¬ reservedNamespace <+: name) : entityMarker ∉ columnFields name := by
  intro hmem
  simp only [columnFields, List.mem_cons, List.not_mem_nil, or_false] at hmem
  rcases hmem with heq | heq | heq
  · exact h (heq ▸ (show reservedNamespace <+: entityMarker from by decide))
  · exact (marker_ne name).1 heq.symm
  · exact (marker_ne name).2 heq.symm

/-- **A turn of the write loop keeps its column**, with the value that is set. -/
theorem ColumnStored.write (h : ColumnStored reader hash column value) (hname : ¬ reservedNamespace <+: column.1.name)
    (hwrite : writeColumn reader change column = .ok changes)
    (hfits : ∀ held, change column.1.name = some (some held) → held.Fits column.1.kind) :
    ColumnStored reader (changes.foldl RedisHash.apply hash) column ((change column.1.name).getD value) := by
  rcases writeColumn_ok hwrite with ⟨hchange, rfl⟩ | ⟨next, hchange, rfl, hexact⟩
  · rw [hchange]
    exact h
  have hpresent : presentShadow ++ column.1.name ≠ column.1.name := fun heq =>
    hname (heq ▸ presentShadow_reserved column.1.name)
  have htag : tagShadow ++ column.1.name ≠ column.1.name := fun heq =>
    hname (heq ▸ tagShadow_reserved column.1.name)
  have hapart := shadows_ne column.1.name column.1.name
  rw [hchange, Option.getD_some]
  refine ⟨?_, ?_, fun hshadow => ?_, hexact, fun held hheld => hfits held (hheld ▸ hchange)⟩
  · rw [columnChanges, List.foldl_append]
    split <;> simp [Function.update_of_ne, hpresent.symm, htag.symm]
  · rw [columnChanges, List.foldl_append]
    split <;> simp [Function.update_of_ne, hapart]
  · rw [columnChanges, List.foldl_append, if_pos hshadow]
    simp

theorem exists_of_mem_mapM {α β ε : Type} {f : α → Except ε β} {l : List α} {results : List β} {b : β}
    (h : l.mapM f = .ok results) (hmem : b ∈ results) : ∃ a ∈ l, f a = .ok b := by
  induction l generalizing results with
  | nil =>
    cases h
    cases hmem
  | cons a l ih =>
    rw [List.mapM_cons] at h
    cases hfirst : f a with
    | error error => rw [hfirst] at h; cases h
    | ok first =>
      cases hrest : l.mapM f with
      | error error => rw [hfirst, hrest] at h; cases h
      | ok rest =>
        rw [hfirst, hrest] at h
        cases h
        rcases List.mem_cons.mp hmem with rfl | hmem
        · exact ⟨a, List.mem_cons_self, hfirst⟩
        · obtain ⟨other, hother, hf⟩ := ih hrest hmem
          exact ⟨other, List.mem_cons_of_mem _ hother, hf⟩

/-- **The write loop keeps every column**, by induction on the columns. -/
theorem stored_writeAll {columns : List (RedisColumnInfo × RedisIndexKind)} {lists : List (List RedisWriteChange)}
    (hnames : (columns.map (·.1.name)).Nodup) (hreserved : ∀ column ∈ columns, ¬ reservedNamespace <+: column.1.name)
    (hfits : ∀ column ∈ columns, ∀ held, change column.1.name = some (some held) → held.Fits column.1.kind)
    (h : ∀ column ∈ columns, ColumnStored reader hash column (entity column.1.name))
    (hwrite : columns.mapM (writeColumn reader change) = .ok lists) :
    ∀ column ∈ columns,
      ColumnStored reader (lists.flatten.foldl RedisHash.apply hash) column (entity.apply change column.1.name) := by
  induction columns generalizing hash lists with
  | nil => intro column hmem; cases hmem
  | cons column columns ih =>
    rw [List.mapM_cons] at hwrite
    cases hfirst : writeColumn reader change column with
    | error error => rw [hfirst] at hwrite; cases hwrite
    | ok first =>
      cases hrest : columns.mapM (writeColumn reader change) with
      | error error => rw [hfirst, hrest] at hwrite; cases hwrite
      | ok rest =>
        rw [hfirst, hrest] at hwrite
        cases hwrite
        obtain ⟨hnot, hnames⟩ := List.nodup_cons.mp hnames
        have hcolumn := hreserved column List.mem_cons_self
        have hne : ∀ other ∈ columns, column.1.name ≠ other.1.name := fun other hother heq =>
          hnot (List.mem_map.mpr ⟨other, hother, heq.symm⟩)
        rw [List.flatten_cons, List.foldl_append]
        intro other hother
        rcases List.mem_cons.mp hother with rfl | hother
        · refine ((h other hother).write hcolumn hfirst (hfits other hother)).congr fun key hkey => ?_
          refine applyAll_other fun later hlater => ?_
          obtain ⟨changes, hchanges, hlater⟩ := List.mem_flatten.mp hlater
          obtain ⟨third, hthird, hturn⟩ := exists_of_mem_mapM hrest hchanges
          rintro rfl
          exact columnFields_disjoint (hne third hthird) hcolumn (hreserved third (List.mem_cons_of_mem _ hthird)) hkey
            (writeColumn_fields hturn _ hlater)
        · refine ih hnames (fun third hthird => hreserved third (List.mem_cons_of_mem _ hthird))
            (fun third hthird => hfits third (List.mem_cons_of_mem _ hthird)) (fun third hthird => ?_) hrest other
            hother
          refine (h third (List.mem_cons_of_mem _ hthird)).congr fun key hkey => applyAll_other fun early hearly => ?_
          rintro rfl
          exact columnFields_disjoint (hne third hthird) hcolumn (hreserved third (List.mem_cons_of_mem _ hthird))
            (writeColumn_fields hfirst _ hearly) hkey

/-- **Every column of a stored entity is kept**, with its shadows. -/
theorem StoredEntity.columns (hmapping : mapping.Normalized) (h : StoredEntity reader mapping hash entity) :
    ∀ column ∈ mapping.columns,
      ColumnStored reader hash (column, mapping.indexKind column.name) (entity column.name) := by
  induction h with
  | fresh =>
    exact fun column _ => ⟨rfl, rfl, fun _ => rfl, fun _ _ held hheld => (by cases hheld),
      fun held hheld => (by cases hheld)⟩
  | @written hash entity change changes _ hwrite ih =>
    have hzip : mapping.columns.zip mapping.columnIndexKinds =
        mapping.columns.map fun column => (column, mapping.indexKind column.name) := by
      rw [hmapping.kinds, List.map_prod_left_eq_zip]
    rw [writeArguments, hzip] at hwrite
    cases hlists : (mapping.columns.map fun column => (column, mapping.indexKind column.name)).mapM
        (writeColumn reader change.change) with
    | error error => rw [hlists] at hwrite; cases hwrite
    | ok lists =>
      rw [hlists] at hwrite
      cases hwrite
      intro column hcolumn
      have hstored : ∀ pair ∈ mapping.columns.map fun column => (column, mapping.indexKind column.name),
          ColumnStored reader hash pair (entity pair.1.name) := by
        intro pair hpair
        obtain ⟨other, hother, rfl⟩ := List.mem_map.mp hpair
        exact ih other hother
      have hwritten := stored_writeAll (by rw [List.map_map]; exact hmapping.names)
        (fun pair hpair => ?_) (fun pair hpair => ?_) hstored hlists
        (column, mapping.indexKind column.name) (List.mem_map_of_mem hcolumn)
      · refine hwritten.congr fun key hkey => Function.update_of_ne ?_ _ _
        rintro rfl
        exact entityMarker_not_mem (hmapping.unreserved column hcolumn) hkey
      all_goals obtain ⟨other, hother, rfl⟩ := List.mem_map.mp hpair
      · exact hmapping.unreserved other hother
      · exact change.fits other hother

end

end Ruvia.Web
