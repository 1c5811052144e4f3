import Mathlib.Data.List.Nodup
import Ruvia.Http.ChunkFraming

/-!
# `Web.RedisMapping` — the index layout of a Redis repository

`normalize_redis_mapping` and `compile_redis_index`. The layout is checked once: every index column exists, is a safe
identifier outside the reserved namespace, has one index, and that index fits the values of the column
(`normalizeRedisMapping_ok`). From it follow the attributes of the search index, each read from one hash field.
-/

namespace Ruvia.Web

open Library Http

/-! ## The mapping -/

inductive RedisColumnKind where
  | unsupported | text | boolValue | signedValue | unsignedValue | float32 | float64
  deriving DecidableEq

structure RedisColumnInfo where
  name : Bytes
  kind : RedisColumnKind
  primaryKey : Bool

inductive RedisIndexKind where
  | none | tag | text | numeric
  deriving DecidableEq

structure RedisIndexConfig where
  column : Bytes
  kind : RedisIndexKind
  sortable : Bool

structure RedisRepositoryConfig where
  keyPrefix : Bytes
  indexes : List RedisIndexConfig

structure RedisIndexDefinition where
  column : Bytes
  kind : RedisIndexKind
  sortable : Bool

/-- A repository's index layout. `columnIndexKinds` is by the position of the column. -/
structure RedisMapping where
  columns : List RedisColumnInfo
  entityPrefix : Bytes
  keyPrefix : Bytes
  indexes : List RedisIndexDefinition
  columnIndexKinds : List RedisIndexKind

namespace RedisMapping

def findIndex (mapping : RedisMapping) (column : Bytes) : Option RedisIndexDefinition :=
  mapping.indexes.find? (·.column == column)

def indexKind (mapping : RedisMapping) (column : Bytes) : RedisIndexKind :=
  match mapping.findIndex column with
  | some index => index.kind
  | none => .none

def sortable (mapping : RedisMapping) (column : Bytes) : Bool :=
  match mapping.findIndex column with
  | some index => index.sortable
  | none => false

end RedisMapping

def isSafeIdentifierByte (ch : UInt8) : Bool :=
  ch == 0x5f || (0x61 ≤ ch && ch ≤ 0x7a) || (0x41 ≤ ch && ch ≤ 0x5a) || (0x30 ≤ ch && ch ≤ 0x39)

def isSafeIdentifier (value : Bytes) : Bool := !value.isEmpty && value.all isSafeIdentifierByte

def isNumericColumnKind (kind : RedisColumnKind) : Bool :=
  kind == .signedValue || kind == .unsignedValue || kind == .float32 || kind == .float64

/-- The kinds whose values are also written to a TAG shadow. -/
def isTagShadowKind (kind : RedisColumnKind) : Bool := kind == .text || kind == .boolValue

def requireIndexFitsColumn (indexKind : RedisIndexKind) (columnKind : RedisColumnKind) : Except String Unit :=
  match indexKind with
  | .tag =>
    if columnKind != .text && columnKind != .boolValue then
      .error "Redis TAG indexes require string or boolean columns"
    else .ok ()
  | .text => if columnKind != .text then .error "Redis TEXT indexes require string columns" else .ok ()
  | .numeric =>
    if !isNumericColumnKind columnKind then .error "Redis NUMERIC indexes require numeric columns" else .ok ()
  | .none => .error "Redis index kind must be TAG, TEXT or NUMERIC"

/-- The namespace of shadow fields and of the entity marker. -/
def reservedNamespace : Bytes := lit "__ruvia_"

def tagShadow : Bytes := lit "__ruvia_tag_"
def sortShadow : Bytes := lit "__ruvia_sort_"
def presentShadow : Bytes := lit "__ruvia_present_"

def presentValue : Bytes := lit "1"

/-- One turn of the loop over the configured indexes. -/
def RedisMapping.addIndex (mapping : RedisMapping) (index : RedisIndexConfig) : Except String RedisMapping :=
  match mapping.columns.find? (·.name == index.column) with
  | none => .error "unknown Redis index column"
  | some column =>
    let position := mapping.columns.findIdx (·.name == index.column)
    if mapping.columnIndexKinds.getD position .none ≠ .none then .error "duplicate Redis index column"
    else if !isSafeIdentifier index.column then .error "invalid Redis index column name"
    else
      (requireIndexFitsColumn index.kind column.kind).map fun () =>
        { mapping with
          indexes := mapping.indexes ++ [⟨index.column, index.kind, index.sortable⟩]
          columnIndexKinds := mapping.columnIndexKinds.set position index.kind }

/-- `normalize_redis_mapping`. -/
def normalizeRedisMapping (columns : List RedisColumnInfo) (entityPrefix : Bytes) (config : RedisRepositoryConfig) :
    Except String RedisMapping :=
  let keyPrefix := if config.keyPrefix.isEmpty then entityPrefix else config.keyPrefix
  if keyPrefix.isEmpty then .error "Redis entity prefix cannot be empty"
  else if keyPrefix.contains 0 then .error "invalid Redis entity prefix"
  else if columns.any fun column => reservedNamespace.isPrefixOf column.name then
    .error "Redis entity column uses reserved __ruvia_ namespace"
  else config.indexes.foldlM RedisMapping.addIndex
    { columns, entityPrefix, keyPrefix, indexes := [], columnIndexKinds := columns.map fun _ => .none }

/-! ## The search index -/

/-- An attribute of the search index: its name in queries and the hash field it is read from. -/
structure SchemaAttribute where
  source : Bytes
  name : Bytes
  kind : RedisIndexKind
  sortable : Bool
  noIndex : Bool

/-- Whether a field and its presence are searched for, and what a sort goes by. -/
def RedisIndexDefinition.attributes (definition : RedisIndexDefinition) : List SchemaAttribute :=
  let field := definition.column
  let presence := presentShadow ++ field
  (if definition.kind = .tag then ⟨tagShadow ++ field, field, .tag, false, false⟩
    else ⟨field, field, if definition.kind = .text then .text else .numeric, definition.sortable, false⟩) ::
  ⟨presence, presence, .tag, false, false⟩ ::
  if definition.kind = .tag ∧ definition.sortable = true then [⟨field, sortShadow ++ field, .tag, true, true⟩] else []

def RedisMapping.attributes (mapping : RedisMapping) : List SchemaAttribute :=
  mapping.indexes.flatMap RedisIndexDefinition.attributes

/-- The attribute a query names. -/
def RedisMapping.findAttribute (mapping : RedisMapping) (name : Bytes) : Option SchemaAttribute :=
  mapping.attributes.find? (·.name == name)

/-- The arguments that declare an attribute. -/
def SchemaAttribute.arguments (field : SchemaAttribute) : List Bytes :=
  match field.kind with
  | .tag =>
    [field.source, lit "AS", field.name, lit "TAG"] ++
      if field.noIndex then [lit "SORTABLE", lit "NOINDEX"] else [lit "CASESENSITIVE"]
  | .text => [field.source, lit "TEXT"] ++ if field.sortable then [lit "SORTABLE"] else []
  | _ => [field.source, lit "NUMERIC"] ++ if field.sortable then [lit "SORTABLE"] else []

/-- `http_append_lower_hex`. -/
def httpLowerHex (value : Bytes) : Bytes :=
  value.flatMap fun byte => [httpLowerHexDigit (byte.toNat / 16), httpLowerHexDigit byte.toNat]

/-- `redis_entity_storage_prefix`. -/
def redisEntityStoragePrefix (keyPrefix : Bytes) : Bytes := lit "ruvia:orm:" ++ httpLowerHex keyPrefix ++ lit ":"

def redisIndexName (keyPrefix : Bytes) : Bytes := keyPrefix ++ lit ":idx"

/-- `compile_redis_index`. -/
def compileRedisIndex (mapping : RedisMapping) : Except String (List Bytes) :=
  if mapping.indexes.isEmpty then .error "Redis repository requires at least one index column"
  else .ok ([lit "FT.CREATE", redisIndexName mapping.keyPrefix, lit "ON", lit "HASH", lit "PREFIX", lit "1",
    redisEntityStoragePrefix mapping.keyPrefix, lit "SCHEMA"] ++ mapping.attributes.flatMap SchemaAttribute.arguments)

/-! ## What is checked -/

/-- What holds of a mapping whose column names are unique. -/
structure RedisMapping.Normalized (mapping : RedisMapping) : Prop where
  names : (mapping.columns.map (·.name)).Nodup
  unreserved : ∀ column ∈ mapping.columns, ¬ reservedNamespace <+: column.name
  safe : ∀ index ∈ mapping.indexes, isSafeIdentifier index.column = true
  nodup : (mapping.indexes.map (·.column)).Nodup
  fits : ∀ index ∈ mapping.indexes, ∃ column ∈ mapping.columns,
    column.name = index.column ∧ requireIndexFitsColumn index.kind column.kind = .ok ()
  kinds : mapping.columnIndexKinds = mapping.columns.map fun column => mapping.indexKind column.name

namespace RedisMapping

variable {mapping : RedisMapping}

theorem indexKind_eq_none_iff (h : mapping.Normalized) {column : Bytes} :
    mapping.indexKind column = .none ↔ ∀ index ∈ mapping.indexes, index.column ≠ column := by
  rw [indexKind, findIndex]
  cases hfind : mapping.indexes.find? (·.column == column) with
  | none =>
    simp only [List.find?_eq_none, beq_iff_eq] at hfind
    exact ⟨fun _ => hfind, fun _ => rfl⟩
  | some index =>
    have hmem := List.mem_of_find?_eq_some hfind
    have hcolumn : index.column = column := by simpa using List.find?_some hfind
    refine ⟨fun hkind => ?_, fun hnot => absurd hcolumn (hnot index hmem)⟩
    obtain ⟨_, -, -, hfits⟩ := h.fits index hmem
    rw [show index.kind = .none from hkind] at hfits
    cases hfits

variable {definition : RedisIndexDefinition} {result : RedisMapping}

theorem findIndex_concat (hindexes : result.indexes = mapping.indexes ++ [definition]) (column : Bytes) :
    result.findIndex column =
      (mapping.findIndex column).or (if definition.column = column then some definition else none) := by
  rw [findIndex, hindexes, List.find?_append, List.find?_singleton, findIndex]
  simp only [beq_iff_eq]

theorem indexKind_concat (h : mapping.Normalized) (hindexes : result.indexes = mapping.indexes ++ [definition])
    (hfree : mapping.indexKind definition.column = .none) (column : Bytes) :
    result.indexKind column = if definition.column = column then definition.kind else mapping.indexKind column := by
  rw [indexKind, findIndex_concat hindexes]
  by_cases heq : definition.column = column
  · have hnone : mapping.findIndex column = none := by
      rw [findIndex, List.find?_eq_none]
      intro index hindex
      have := (indexKind_eq_none_iff h).mp hfree index hindex
      rwa [beq_iff_eq, ← heq]
    rw [if_pos heq, if_pos heq, hnone, Option.none_or]
  · rw [if_neg heq, if_neg heq, Option.or_none, indexKind]

theorem addIndex_eq_ok {index : RedisIndexConfig} (hadd : mapping.addIndex index = .ok result) :
    ∃ column ∈ mapping.columns, column.name = index.column ∧
      mapping.columnIndexKinds.getD (mapping.columns.findIdx (·.name == index.column)) .none = .none ∧
      isSafeIdentifier index.column = true ∧ requireIndexFitsColumn index.kind column.kind = .ok () ∧
      result = { mapping with
        indexes := mapping.indexes ++ [⟨index.column, index.kind, index.sortable⟩]
        columnIndexKinds :=
          mapping.columnIndexKinds.set (mapping.columns.findIdx (·.name == index.column)) index.kind } := by
  rw [RedisMapping.addIndex] at hadd
  split at hadd
  · cases hadd
  next column hfind =>
  simp only at hadd
  split at hadd
  · cases hadd
  next hfree =>
  split at hadd
  · cases hadd
  next hsafe =>
  cases hfits : requireIndexFitsColumn index.kind column.kind with
  | error e => rw [hfits] at hadd; cases hadd
  | ok u =>
    rw [hfits] at hadd
    cases hadd
    exact ⟨column, List.mem_of_find?_eq_some hfind, by simpa using List.find?_some hfind, not_not.mp hfree,
      by simpa using hsafe, hfits, rfl⟩

theorem Normalized.addIndex {index : RedisIndexConfig} (h : mapping.Normalized)
    (hadd : mapping.addIndex index = .ok result) : result.Normalized := by
  obtain ⟨column, hmem, hname, hfree, hsafe, hfits, hresult⟩ := addIndex_eq_ok hadd
  have hindexes : result.indexes = mapping.indexes ++ [⟨index.column, index.kind, index.sortable⟩] := by rw [hresult]
  have hcolumns : result.columns = mapping.columns := by rw [hresult]
  have hkinds : result.columnIndexKinds =
      mapping.columnIndexKinds.set (mapping.columns.findIdx (·.name == index.column)) index.kind := by rw [hresult]
  have hlt : mapping.columns.findIdx (·.name == index.column) < mapping.columns.length :=
    List.findIdx_lt_length_of_exists ⟨column, hmem, by simpa using hname⟩
  have hposition : (mapping.columns[mapping.columns.findIdx (·.name == index.column)]).name = index.column := by
    simpa using List.findIdx_getElem (w := hlt)
  have hnone : mapping.indexKind index.column = .none := by
    rw [h.kinds, List.getD_eq_getElem?_getD, List.getElem?_map, List.getElem?_eq_getElem hlt, Option.map_some,
      Option.getD_some, hposition] at hfree
    exact hfree
  have hnew := (indexKind_eq_none_iff h).mp hnone
  refine ⟨hcolumns ▸ h.names, hcolumns ▸ h.unreserved, fun entry hentry => ?_, ?_, fun entry hentry => ?_, ?_⟩
  · rw [hindexes] at hentry
    rcases List.mem_append.mp hentry with hentry | hentry
    · exact h.safe entry hentry
    · rw [List.mem_singleton.mp hentry]
      exact hsafe
  · rw [hindexes, List.map_append, List.nodup_append]
    refine ⟨h.nodup, List.nodup_singleton _, fun name hold other hother => ?_⟩
    obtain ⟨entry, hentry, rfl⟩ := List.mem_map.mp hold
    rw [List.mem_singleton.mp hother]
    exact hnew entry hentry
  · rw [hindexes] at hentry
    rw [hcolumns]
    rcases List.mem_append.mp hentry with hentry | hentry
    · exact h.fits entry hentry
    · rw [List.mem_singleton.mp hentry]
      exact ⟨column, hmem, hname, hfits⟩
  · rw [hkinds, hcolumns]
    refine List.ext_getElem (by simp [h.kinds]) fun position hold hcolumn => ?_
    have hcolumn : position < mapping.columns.length := by simpa using hcolumn
    rw [List.getElem_map, indexKind_concat h hindexes hnone, List.getElem_set]
    by_cases hat : mapping.columns.findIdx (·.name == index.column) = position
    · subst hat
      rw [if_pos rfl, if_pos hposition.symm]
    · have hne : index.column ≠ (mapping.columns[position]).name := by
        intro heq
        refine hat ((@List.Nodup.getElem_inj_iff _ _ h.names _ (by simpa using hlt) _ (by simpa using hcolumn)).mp ?_)
        rw [List.getElem_map, List.getElem_map, hposition, heq]
      simp only [if_neg hat, if_neg hne, h.kinds, List.getElem_map]

theorem Normalized.foldlM {indexes : List RedisIndexConfig} (h : mapping.Normalized)
    (hadd : indexes.foldlM RedisMapping.addIndex mapping = .ok result) :
    result.Normalized ∧ result.columns = mapping.columns ∧ result.entityPrefix = mapping.entityPrefix := by
  induction indexes generalizing mapping with
  | nil => cases hadd; exact ⟨h, rfl, rfl⟩
  | cons index indexes ih =>
    rw [List.foldlM_cons] at hadd
    cases hstep : mapping.addIndex index with
    | error e => rw [hstep] at hadd; cases hadd
    | ok next =>
      rw [hstep] at hadd
      obtain ⟨hnormalized, hcolumns, hprefix⟩ := ih (h.addIndex hstep) hadd
      obtain ⟨-, -, -, -, -, -, rfl⟩ := addIndex_eq_ok hstep
      exact ⟨hnormalized, hcolumns, hprefix⟩

variable {index : RedisIndexDefinition}

section

variable (h : mapping.Normalized)
include h

theorem Normalized.indexKind_eq (hindex : index ∈ mapping.indexes) : mapping.indexKind index.column = index.kind := by
  rw [indexKind, findIndex]
  cases hfind : mapping.indexes.find? (·.column == index.column) with
  | none => exact absurd (List.find?_eq_none.mp hfind index hindex) (by simp)
  | some found =>
    have hcolumn : found.column = index.column := by simpa using List.find?_some hfind
    rw [List.inj_on_of_nodup_map h.nodup (List.mem_of_find?_eq_some hfind) hindex hcolumn]

theorem Normalized.exists_index {column : Bytes} (hkind : mapping.indexKind column ≠ .none) :
    ∃ index ∈ mapping.indexes, index.column = column ∧ index.kind = mapping.indexKind column := by
  by_contra hnot
  refine hkind ((indexKind_eq_none_iff h).mpr fun index hindex heq => hnot ⟨index, hindex, heq, ?_⟩)
  rw [← heq, h.indexKind_eq hindex]

/-- An index column is not in the reserved namespace. -/
theorem Normalized.index_unreserved (hindex : index ∈ mapping.indexes) : ¬ reservedNamespace <+: index.column := by
  obtain ⟨column, hcolumn, hname, -⟩ := h.fits index hindex
  exact hname ▸ h.unreserved column hcolumn

end

variable {column : RedisColumnInfo}

section

variable (h : mapping.Normalized)
include h

/-- The index of a column fits its values. -/
theorem Normalized.fits_column (hcolumn : column ∈ mapping.columns)
    (hkind : mapping.indexKind column.name ≠ .none) :
    requireIndexFitsColumn (mapping.indexKind column.name) column.kind = .ok () := by
  obtain ⟨index, hindex, hname, hindexKind⟩ := h.exists_index hkind
  obtain ⟨other, hother, hotherName, hfits⟩ := h.fits index hindex
  rw [List.inj_on_of_nodup_map h.names hother hcolumn (hotherName.trans hname), hindexKind] at hfits
  exact hfits

theorem Normalized.tag_column (hcolumn : column ∈ mapping.columns)
    (hkind : mapping.indexKind column.name = .tag) : isTagShadowKind column.kind = true := by
  have hfits := h.fits_column hcolumn (by rw [hkind]; decide)
  rw [hkind] at hfits
  cases hcolumnKind : column.kind <;> rw [hcolumnKind] at hfits <;> first | rfl | cases hfits

theorem Normalized.numeric_column (hcolumn : column ∈ mapping.columns)
    (hkind : mapping.indexKind column.name = .numeric) :
    isTagShadowKind column.kind = false := by
  have hfits := h.fits_column hcolumn (by rw [hkind]; decide)
  rw [hkind] at hfits
  cases hcolumnKind : column.kind <;> rw [hcolumnKind] at hfits <;> first | rfl | cases hfits

end

variable {field : SchemaAttribute}

theorem name_of_mem_attributes (hmem : field ∈ definition.attributes) :
    field.name = definition.column ∧ some field = definition.attributes[0]? ∨
      field.name = presentShadow ++ definition.column ∧ some field = definition.attributes[1]? ∨
      field.name = sortShadow ++ definition.column ∧ some field = definition.attributes[2]? := by
  rw [RedisIndexDefinition.attributes] at hmem ⊢
  rcases List.mem_cons.mp hmem with rfl | hmem
  · refine .inl ⟨?_, rfl⟩
    split <;> rfl
  · rcases List.mem_cons.mp hmem with rfl | hmem
    · exact .inr (.inl ⟨rfl, rfl⟩)
    · split at hmem
      next hsort =>
        rw [if_pos hsort, List.mem_singleton.mp hmem]
        exact .inr (.inr ⟨rfl, rfl⟩)
      · cases hmem

/-- **Attributes are told apart by name.** -/
theorem Normalized.attribute_unique (h : mapping.Normalized) {other : SchemaAttribute}
    (hfield : field ∈ mapping.attributes) (hother : other ∈ mapping.attributes) (hname : field.name = other.name) :
    field = other := by
  obtain ⟨index, hindex, hfield⟩ := List.mem_flatMap.mp hfield
  obtain ⟨second, hsecond, hother⟩ := List.mem_flatMap.mp hother
  have hpresent : ∀ suffix, reservedNamespace <+: presentShadow ++ suffix := fun suffix =>
    (show reservedNamespace <+: presentShadow from by decide).trans (List.prefix_append _ _)
  have hsort : ∀ suffix, reservedNamespace <+: sortShadow ++ suffix := fun suffix =>
    (show reservedNamespace <+: sortShadow from by decide).trans (List.prefix_append _ _)
  have hshadows : ∀ left right, presentShadow ++ left ≠ sortShadow ++ right := by
    intro left right heq
    have hat := congrArg (·[8]?) heq
    revert hat
    simp [presentShadow, sortShadow, lit]
  have hindex' := h.index_unreserved hindex
  have hsecond' := h.index_unreserved hsecond
  have hsame : ∀ {place : Nat}, index.column = second.column → some field = index.attributes[place]? →
      some other = second.attributes[place]? → field = other := by
    intro place hcolumn hplace hplace'
    rw [List.inj_on_of_nodup_map h.nodup hindex hsecond hcolumn, ← hplace'] at hplace
    exact Option.some.inj hplace
  rcases name_of_mem_attributes hfield with ⟨hf, hplace⟩ | ⟨hf, hplace⟩ | ⟨hf, hplace⟩ <;>
    rcases name_of_mem_attributes hother with ⟨ho, hplace'⟩ | ⟨ho, hplace'⟩ | ⟨ho, hplace'⟩ <;>
    rw [hf, ho] at hname
  · exact hsame hname hplace hplace'
  · exact absurd (hname ▸ hpresent _) hindex'
  · exact absurd (hname ▸ hsort _) hindex'
  · exact absurd (hname ▸ hpresent _) hsecond'
  · exact hsame (List.append_cancel_left hname) hplace hplace'
  · exact absurd hname (hshadows _ _)
  · exact absurd (hname ▸ hsort _) hsecond'
  · exact absurd hname.symm (hshadows _ _)
  · exact hsame (List.append_cancel_left hname) hplace hplace'

theorem Normalized.findAttribute_eq (h : mapping.Normalized) (hfield : field ∈ mapping.attributes) :
    mapping.findAttribute field.name = some field := by
  rw [findAttribute]
  cases hfind : mapping.attributes.find? (·.name == field.name) with
  | none => exact absurd (List.find?_eq_none.mp hfind field hfield) (by simp)
  | some found =>
    have hname : found.name = field.name := by simpa using List.find?_some hfind
    rw [h.attribute_unique (List.mem_of_find?_eq_some hfind) hfield hname]

end RedisMapping

/-- **What `normalize_redis_mapping` gives** for columns whose names are unique. -/
theorem normalizeRedisMapping_ok {columns : List RedisColumnInfo} {entityPrefix : Bytes}
    {config : RedisRepositoryConfig} {mapping : RedisMapping} (hnames : (columns.map (·.name)).Nodup)
    (h : normalizeRedisMapping columns entityPrefix config = .ok mapping) :
    mapping.Normalized ∧ mapping.columns = columns ∧ mapping.entityPrefix = entityPrefix := by
  rw [normalizeRedisMapping] at h
  generalize (if config.keyPrefix.isEmpty then entityPrefix else config.keyPrefix) = keyPrefix at h
  split at h
  · cases h
  split at h
  · cases h
  split at h
  · cases h
  next hreserved =>
  have hempty : RedisMapping.Normalized
      { columns, entityPrefix, keyPrefix, indexes := [], columnIndexKinds := columns.map fun _ => .none } := by
    refine ⟨hnames, fun column hcolumn hprefix => hreserved ?_, ?_, List.nodup_nil, ?_, rfl⟩
    · exact List.any_eq_true.mpr ⟨column, hcolumn, List.isPrefixOf_iff_prefix.mpr hprefix⟩
    · intro index hindex
      cases hindex
    · intro index hindex
      cases hindex
  exact hempty.foldlM h

end Ruvia.Web
