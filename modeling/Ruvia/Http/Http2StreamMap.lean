import Mathlib.Algebra.GroupWithZero.Nat
import Ruvia.Http.Http2StreamTable

/-!
# `Http.Http2StreamMap` — the finite map that the stream table stands for

A map from stream ids to records with a bound on its size and on its pushed streams (`StreamMap`). The table stands for
it (`Represents`) when its slots, dead ones apart, hold exactly the records of the map, the ids beside the overflow are
those of its slots and the counters agree. Every operation of the table is then that of the map. While an iteration is
under way the operations put a record into a free slot or clear a slot, and move none (`Puts`, `Clears`).
-/

namespace Ruvia.Http.Http2StreamTable

open Library

/-! ## The map -/

/-- The map that the table is for: its streams in the order of their creation. -/
abbrev StreamMap := List StreamRecord

namespace StreamMap

def lookup (streams : StreamMap) (streamId : Nat) : Option StreamRecord :=
  streams.find? fun stream => stream.id == streamId

def pushed (streams : StreamMap) : Nat := streams.countP fun stream => isPush stream.id

def create (streams : StreamMap) (serial streamId : Nat) (allocated : Bool) : StreamMap × CreateAnswer :=
  match streams.lookup streamId with
  | some stream => (streams, .existing stream)
  | none =>
    if maxStreams ≤ streams.length ∨ (isPush streamId ∧ maxPushStreams ≤ streams.pushed) then (streams, .refused)
    else if allocated = false then (streams, .failed)
    else (streams ++ [⟨streamId, serial⟩], .created ⟨streamId, serial⟩)

def remove (streams : StreamMap) (streamId : Nat) : StreamMap × Bool :=
  (streams.filter fun stream => stream.id != streamId, (streams.lookup streamId).isSome)

variable {streams : StreamMap} {streamId : Nat} {stream : StreamRecord}

theorem id_of_lookup (h : streams.lookup streamId = some stream) : stream.id = streamId := by
  have hid := List.find?_some h
  exact beq_iff_eq.mp hid

theorem lookup_eq_some_iff (h : (streams.map StreamRecord.id).Nodup) :
    streams.lookup streamId = some stream ↔ stream ∈ streams ∧ stream.id = streamId := by
  constructor
  · intro hfind
    exact ⟨List.mem_of_find?_eq_some hfind, id_of_lookup hfind⟩
  · rintro ⟨hmem, rfl⟩
    cases hfind : streams.lookup stream.id with
    | none => exact absurd (beq_self_eq_true stream.id) (List.find?_eq_none.mp hfind stream hmem)
    | some other =>
      rw [List.inj_on_of_nodup_map h (List.mem_of_find?_eq_some hfind) hmem (id_of_lookup hfind)]

theorem lookup_eq_none_iff : streams.lookup streamId = none ↔ ∀ stream ∈ streams, stream.id ≠ streamId := by
  rw [lookup, List.find?_eq_none]
  simp only [beq_iff_eq, ne_eq]

end StreamMap

/-! ## What the table stands for -/

/-- The id that stands beside an overflow slot. -/
def key (slot : Option StreamRecord) : Nat := slot.elim 0 StreamRecord.id

def slots (table : Http2StreamTable) : List (Option StreamRecord) := table.inline ++ table.overflow

/-- **The table stands for the map.** -/
structure Represents (table : Http2StreamTable) (streams : StreamMap) : Prop where
  capacity : table.inline.length = inlineCapacity
  ids : table.overflowIds = table.overflow.map key
  perm : table.slots.reduceOption.Perm streams
  nodup : (streams.map StreamRecord.id).Nodup
  nonzero : ∀ stream ∈ streams, stream.id ≠ 0
  size : table.size = streams.length
  pushSize : table.pushSize = streams.pushed
  bound : streams.length ≤ maxStreams
  pushBound : streams.pushed ≤ maxPushStreams
  compacted : table.overflowNeedsCompact = false → none ∉ table.overflow
  idle : table.snapshotIterationDepth = 0 → table.overflowNeedsCompact = false

section

variable {table table' : Http2StreamTable} {streams : StreamMap} {stream : StreamRecord} {streamId serial n : Nat}

theorem represents_empty : Represents {} [] where
  capacity := rfl
  ids := rfl
  perm := List.Perm.refl []
  nodup := .nil
  nonzero := List.forall_mem_nil _
  size := rfl
  pushSize := rfl
  bound := Nat.zero_le _
  pushBound := Nat.zero_le _
  compacted := fun _ => List.not_mem_nil
  idle := fun _ => rfl

section

variable (h : table.Represents streams)
include h

theorem Represents.mem_of_slot (hslot : slotOf table.slots n = some stream) :
    stream ∈ streams := h.perm.mem_iff.mp (mem_reduceOption_of_slot hslot)

theorem Represents.exists_slot (hmem : stream ∈ streams) :
    ∃ n, slotOf table.slots n = some stream := Library.exists_slot (h.perm.mem_iff.mpr hmem)

theorem Represents.separate : Separate (slotOf table.slots) :=
  separate_of_nodup (h.perm.nodup_iff.mpr (List.Nodup.of_map _ h.nodup))

end

variable {i : Nat}

theorem slotOf_inline (h : table.inline[i]? = some (some stream)) : slotOf table.slots i = some stream := by
  rw [slotOf_eq_some_iff, slots, List.getElem?_append_left (List.getElem?_eq_some_iff.mp h).1, h]

theorem slotOf_overflow (h : table.overflow[i]? = some (some stream)) :
    slotOf table.slots (table.inline.length + i) = some stream := by
  rw [slotOf_eq_some_iff, slots, List.getElem?_append_right (Nat.le_add_right _ _), Nat.add_sub_cancel_left, h]

variable {slot : Option StreamRecord}

theorem holds_eq_true_iff : holds streamId slot = true ↔ ∃ stream, slot = some stream ∧ stream.id = streamId := by
  rw [holds, Option.any_eq_true]
  simp only [beq_iff_eq]

theorem findInline_eq_some (h : table.findInline streamId = some i) :
    ∃ stream, table.inline[i]? = some (some stream) ∧ stream.id = streamId := by
  obtain ⟨hlt, hholds, -⟩ := List.findIdx?_eq_some_iff_getElem.mp h
  obtain ⟨stream, hslot, hid⟩ := holds_eq_true_iff.mp hholds
  exact ⟨stream, by rw [List.getElem?_eq_getElem hlt, hslot], hid⟩

section

variable (h : table.Represents streams)
include h

theorem Represents.findOverflow_eq_some (hid : streamId ≠ 0)
    (hfind : table.findOverflow streamId = some i) :
    ∃ stream, table.overflow[i]? = some (some stream) ∧ stream.id = streamId := by
  obtain ⟨hlt, hkey, -⟩ := List.findIdx?_eq_some_iff_getElem.mp hfind
  have hlt' : i < table.overflow.length := by
    rw [h.ids, List.length_map] at hlt
    exact hlt
  have hkey' : key table.overflow[i] = streamId := by
    have hids := beq_iff_eq.mp hkey
    simp only [h.ids, List.getElem_map] at hids
    exact hids
  cases hslot : table.overflow[i] with
  | none =>
    rw [hslot] at hkey'
    exact absurd hkey'.symm hid
  | some stream =>
    rw [hslot] at hkey'
    exact ⟨stream, by rw [List.getElem?_eq_getElem hlt', hslot], hkey'⟩

theorem Represents.not_found (hinline : table.findInline streamId = none)
    (hoverflow : table.findOverflow streamId = none) : ∀ stream ∈ streams, stream.id ≠ streamId := by
  rintro stream hmem rfl
  have hslot := List.reduceOption_mem_iff.mp (h.perm.mem_iff.mpr hmem)
  rcases List.mem_append.mp hslot with hslot | hslot
  · have hnot := List.findIdx?_eq_none_iff.mp hinline _ hslot
    rw [holds_eq_true_iff.mpr ⟨stream, rfl, rfl⟩] at hnot
    cases hnot
  · have hkey : stream.id ∈ table.overflowIds := by
      rw [h.ids]
      exact List.mem_map.mpr ⟨some stream, hslot, rfl⟩
    have hnot := List.findIdx?_eq_none_iff.mp hoverflow _ hkey
    rw [beq_self_eq_true] at hnot
    cases hnot

/-- **A lookup** is that of the map. -/
theorem Represents.find_eq (streamId : Nat) : table.find streamId = streams.lookup streamId := by
  rw [find]
  by_cases hid : streamId = 0
  · rw [if_pos hid, hid]
    exact (StreamMap.lookup_eq_none_iff.mpr h.nonzero).symm
  rw [if_neg hid]
  cases hinline : table.findInline streamId with
  | some i =>
    obtain ⟨stream, hslot, hstream⟩ := findInline_eq_some hinline
    rw [(StreamMap.lookup_eq_some_iff h.nodup).mpr ⟨h.mem_of_slot (slotOf_inline hslot), hstream⟩]
    exact List.getD_eq_getElem?_getD.trans (by rw [hslot]; rfl)
  | none =>
    cases hoverflow : table.findOverflow streamId with
    | some i =>
      obtain ⟨stream, hslot, hstream⟩ := h.findOverflow_eq_some hid hoverflow
      rw [(StreamMap.lookup_eq_some_iff h.nodup).mpr ⟨h.mem_of_slot (slotOf_overflow hslot), hstream⟩]
      exact List.getD_eq_getElem?_getD.trans (by rw [hslot]; rfl)
    | none => exact (StreamMap.lookup_eq_none_iff.mpr (h.not_found hinline hoverflow)).symm

end

/-! ## A stream more -/

/-- A change of the slots that puts a stream into a free one. -/
structure Puts (table table' : Http2StreamTable) (stream : StreamRecord) : Prop where
  capacity : table'.inline.length = table.inline.length
  overflow : table.overflow.length ≤ table'.overflow.length
  depth : table'.snapshotIterationDepth = table.snapshotIterationDepth
  slot : ∃ n, slotOf table.slots n = none ∧ slotOf table'.slots = Function.update (slotOf table.slots) n (some stream)

/-- Where the stream is put. -/
theorem place_cases (table : Http2StreamTable) (stream : StreamRecord) :
    (∃ i, table.inline[i]? = some none ∧
      table.place stream = { table with inline := table.inline.set i (some stream) }) ∨
    table.place stream =
      { table with
        overflowIds := table.overflowIds ++ [stream.id]
        overflow := table.overflow ++ [some stream] } := by
  rw [place]
  cases hfree : table.inline.findIdx? Option.isNone with
  | some i =>
    obtain ⟨hlt, hnone, -⟩ := List.findIdx?_eq_some_iff_getElem.mp hfree
    exact .inl ⟨i, by rw [List.getElem?_eq_getElem hlt, Option.isNone_iff_eq_none.mp hnone], rfl⟩
  | none => exact .inr rfl

theorem slots_inline (h : table.inline[i]? = some slot) : table.slots[i]? = some slot := by
  rw [slots, List.getElem?_append_left (List.getElem?_eq_some_iff.mp h).1, h]

theorem slots_overflow (h : table.overflow[i]? = some slot) : table.slots[table.inline.length + i]? = some slot := by
  rw [slots, List.getElem?_append_right (Nat.le_add_right _ _), Nat.add_sub_cancel_left, h]

theorem slots_set_inline (h : table.inline[i]? = some slot) (next : Option StreamRecord) :
    table.inline.set i next ++ table.overflow = table.slots.set i next :=
  (List.set_append_left _ _ (List.getElem?_eq_some_iff.mp h).1).symm

theorem slots_set_overflow (i : Nat) (next : Option StreamRecord) :
    table.inline ++ table.overflow.set i next = table.slots.set (table.inline.length + i) next := by
  rw [slots, List.set_append_right _ _ (Nat.le_add_right _ _), Nat.add_sub_cancel_left]

theorem puts_place (table : Http2StreamTable) (stream : StreamRecord) : Puts table (table.place stream) stream := by
  rcases place_cases table stream with ⟨i, hfree, hplace⟩ | hplace
  · rw [hplace]
    have hslot := slots_inline hfree
    refine ⟨List.length_set, Nat.le_refl _, rfl, i, by rw [slotOf, hslot]; rfl, ?_⟩
    show slotOf (table.inline.set i (some stream) ++ table.overflow) = _
    rw [slots_set_inline hfree, slotOf_set (List.getElem?_eq_some_iff.mp hslot).1]
  · rw [hplace]
    refine ⟨rfl, ?_, rfl, table.slots.length, ?_, ?_⟩
    · rw [List.length_append]
      exact Nat.le_add_right _ _
    · rw [slotOf, List.getElem?_eq_none (Nat.le_refl _)]
      rfl
    · show slotOf (table.inline ++ (table.overflow ++ [some stream])) = _
      rw [← List.append_assoc, ← slots, slotOf_concat]

theorem perm_place (table : Http2StreamTable) (stream : StreamRecord) :
    (table.place stream).slots.reduceOption.Perm (stream :: table.slots.reduceOption) := by
  rcases place_cases table stream with ⟨i, hfree, hplace⟩ | hplace
  · rw [hplace]
    show (table.inline.set i (some stream) ++ table.overflow).reduceOption.Perm _
    rw [slots_set_inline hfree]
    exact reduceOption_put (slots_inline hfree)
  · rw [hplace]
    show (table.inline ++ (table.overflow ++ [some stream])).reduceOption.Perm _
    rw [← List.append_assoc, ← slots, List.reduceOption_append]
    exact List.perm_append_singleton stream _

/-- What the table keeps when a stream is put into it. -/
theorem place_keeps (table : Http2StreamTable) (stream : StreamRecord) :
    (table.overflowIds = table.overflow.map key →
      (table.place stream).overflowIds = (table.place stream).overflow.map key) ∧
    (none ∉ table.overflow → none ∉ (table.place stream).overflow) ∧
    (table.place stream).overflowNeedsCompact = table.overflowNeedsCompact ∧
    (table.place stream).size = table.size ∧ (table.place stream).pushSize = table.pushSize := by
  rcases place_cases table stream with ⟨i, -, hplace⟩ | hplace
  · rw [hplace]
    exact ⟨id, id, rfl, rfl, rfl⟩
  · rw [hplace]
    refine ⟨fun hids => ?_, fun hnone => ?_, rfl, rfl, rfl⟩
    · rw [hids, List.map_append]
      rfl
    · simpa using hnone

theorem pushed_concat (streams : StreamMap) (stream : StreamRecord) :
    StreamMap.pushed (streams ++ [stream]) =
      if isPush stream.id then streams.pushed + 1 else streams.pushed := by
  rw [StreamMap.pushed, List.countP_append, List.countP_singleton, ← StreamMap.pushed]
  split <;> rfl

/-- **A stream more in the table** is one more in the map. -/
theorem Represents.place (h : table.Represents streams) (hid : streamId ≠ 0)
    (hnew : ∀ stream ∈ streams, stream.id ≠ streamId)
    (hroom : ¬(maxStreams ≤ streams.length ∨ (isPush streamId = true ∧ maxPushStreams ≤ streams.pushed))) :
    ((table.place ⟨streamId, serial⟩).counted streamId).Represents (streams ++ [⟨streamId, serial⟩]) := by
  obtain ⟨hsize, hpush⟩ := not_or.mp hroom
  have hputs := puts_place table ⟨streamId, serial⟩
  obtain ⟨hids, hnone, hcompact, hsize', hpushSize⟩ := place_keeps table ⟨streamId, serial⟩
  have hpushed := pushed_concat streams ⟨streamId, serial⟩
  refine ⟨hputs.capacity.trans h.capacity, hids h.ids, ?_, ?_, ?_, ?_, ?_, ?_, ?_, ?_, ?_⟩
  · exact (perm_place table _).trans ((h.perm.cons _).trans (List.perm_append_singleton _ _).symm)
  · rw [List.map_append, List.nodup_append]
    refine ⟨h.nodup, List.nodup_singleton _, ?_⟩
    rintro id hmem other hother rfl
    obtain ⟨stream, hstream, rfl⟩ := List.mem_map.mp hmem
    exact hnew stream hstream (List.mem_singleton.mp hother)
  · exact List.forall_mem_append.mpr ⟨h.nonzero, List.forall_mem_singleton.mpr hid⟩
  · show (table.place _).size + 1 = (_ ++ [_]).length
    rw [hsize', h.size, List.length_append]
    rfl
  · show (if isPush streamId then _ else _) = _
    rw [hpushed, hpushSize, h.pushSize]
  · rw [List.length_append, List.length_singleton]
    omega
  · rw [hpushed]
    split_ifs with hparity
    · have := not_and.mp hpush hparity
      omega
    · exact h.pushBound
  · intro hneeds
    exact hnone (h.compacted (hcompact.symm.trans hneeds))
  · intro hdepth
    exact hcompact.trans (h.idle (hputs.depth.symm.trans hdepth))

/-- **`create` is that of the map.** -/
theorem Represents.create (h : table.Represents streams) (hid : streamId ≠ 0) (allocated : Bool) :
    (table.create serial streamId allocated).2 = (streams.create serial streamId allocated).2 ∧
      (table.create serial streamId allocated).1.Represents (streams.create serial streamId allocated).1 := by
  rw [Http2StreamTable.create, StreamMap.create, h.find_eq, h.size, h.pushSize]
  cases hlookup : streams.lookup streamId with
  | some stream => exact ⟨rfl, h⟩
  | none =>
    split_ifs with hroom
    · exact ⟨rfl, h⟩
    · exact ⟨rfl, h⟩
    · exact ⟨rfl, h.place hid (StreamMap.lookup_eq_none_iff.mp hlookup) hroom⟩

/-! ## A stream less -/

/-- A change of the slots that clears that of a stream. -/
structure Clears (table table' : Http2StreamTable) (stream : StreamRecord) : Prop where
  capacity : table'.inline.length = table.inline.length
  overflow : table'.overflow.length = table.overflow.length
  depth : table'.snapshotIterationDepth = table.snapshotIterationDepth
  slot : ∃ n, slotOf table.slots n = some stream ∧ slotOf table'.slots = Function.update (slotOf table.slots) n none

/-- A table from whose slots a stream has been taken, before the counters follow. -/
structure Without (table table' : Http2StreamTable) (stream : StreamRecord) : Prop where
  capacity : table'.inline.length = table.inline.length
  ids : table'.overflowIds = table'.overflow.map key
  perm : table.slots.reduceOption.Perm (stream :: table'.slots.reduceOption)
  compacted : table'.overflowNeedsCompact = false → none ∉ table'.overflow
  idle : table'.snapshotIterationDepth = 0 → table'.overflowNeedsCompact = false
  size : table'.size = table.size
  pushSize : table'.pushSize = table.pushSize

/-- Where the stream is, for a removal. -/
theorem Represents.remove_cases (h : table.Represents streams) (hid : streamId ≠ 0) :
    (∃ i stream, table.inline[i]? = some (some stream) ∧ stream.id = streamId ∧
      table.remove streamId = ({ table with inline := table.inline.set i none }.discounted streamId, true)) ∨
    (∃ i stream, table.overflow[i]? = some (some stream) ∧ stream.id = streamId ∧
      table.remove streamId = ((table.eraseOverflowAt i).discounted streamId, true)) ∨
    ((∀ stream ∈ streams, stream.id ≠ streamId) ∧ table.remove streamId = (table, false)) := by
  rw [remove, if_neg hid]
  cases hinline : table.findInline streamId with
  | some i =>
    obtain ⟨stream, hslot, hstream⟩ := findInline_eq_some hinline
    exact .inl ⟨i, stream, hslot, hstream, rfl⟩
  | none =>
    cases hoverflow : table.findOverflow streamId with
    | some i =>
      obtain ⟨stream, hslot, hstream⟩ := h.findOverflow_eq_some hid hoverflow
      exact .inr (.inl ⟨i, stream, hslot, hstream, rfl⟩)
    | none => exact .inr (.inr ⟨h.not_found hinline hoverflow, rfl⟩)

theorem clears_inline (hslot : table.inline[i]? = some (some stream)) :
    Clears table { table with inline := table.inline.set i none } stream := by
  have hslots := slots_inline hslot
  refine ⟨List.length_set, rfl, rfl, i, slotOf_eq_some_iff.mpr hslots, ?_⟩
  show slotOf (table.inline.set i none ++ table.overflow) = _
  rw [slots_set_inline hslot, slotOf_set (List.getElem?_eq_some_iff.mp hslots).1]

theorem Represents.without_inline (h : table.Represents streams) (hslot : table.inline[i]? = some (some stream)) :
    Without table { table with inline := table.inline.set i none } stream := by
  refine { h with capacity := List.length_set, perm := ?_, size := rfl, pushSize := rfl }
  show table.slots.reduceOption.Perm (stream :: (table.inline.set i none ++ table.overflow).reduceOption)
  rw [slots_set_inline hslot]
  exact reduceOption_clear (slots_inline hslot)

/-- While an iteration is under way the slot is only cleared. -/
theorem clears_overflow (hdepth : table.snapshotIterationDepth ≠ 0) (hslot : table.overflow[i]? = some (some stream)) :
    Clears table (table.eraseOverflowAt i) stream := by
  have hslots := slots_overflow hslot
  rw [eraseOverflowAt, if_pos hdepth]
  refine ⟨rfl, List.length_set, rfl, table.inline.length + i, slotOf_eq_some_iff.mpr hslots, ?_⟩
  show slotOf (table.inline ++ table.overflow.set i none) = _
  rw [slots_set_overflow, slotOf_set (List.getElem?_eq_some_iff.mp hslots).1]

theorem Represents.without_overflow (h : table.Represents streams) (hslot : table.overflow[i]? = some (some stream)) :
    Without table (table.eraseOverflowAt i) stream := by
  by_cases hdepth : table.snapshotIterationDepth ≠ 0
  · rw [eraseOverflowAt, if_pos hdepth]
    refine ⟨rfl, ?_, ?_, ?_, fun hzero => absurd hzero hdepth, rfl, rfl⟩
    · rw [h.ids, List.map_set]
      rfl
    · show table.slots.reduceOption.Perm (stream :: (table.inline ++ table.overflow.set i none).reduceOption)
      rw [slots_set_overflow]
      exact reduceOption_clear (slots_overflow hslot)
    · intro hfalse
      cases hfalse
  · have hneeds := h.idle (not_not.mp hdepth)
    have hperm := perm_swapRemove hslot
    rw [eraseOverflowAt, if_neg hdepth]
    refine ⟨rfl, ?_, ?_, ?_, fun _ => hneeds, rfl, rfl⟩
    · rw [h.ids, swapRemove_map]
    · show (table.inline ++ table.overflow).reduceOption.Perm
        (stream :: (table.inline ++ swapRemove table.overflow i).reduceOption)
      rw [List.reduceOption_append, List.reduceOption_append]
      exact ((hperm.filterMap id).append_left _).trans List.perm_middle
    · intro _ hmem
      exact h.compacted hneeds (hperm.mem_iff.mpr (List.mem_cons_of_mem _ hmem))

/-- The stream and the rest of the map. -/
theorem perm_filter {table' : Http2StreamTable} (hnodup : (streams.map StreamRecord.id).Nodup)
    (hperm : (stream :: table'.slots.reduceOption).Perm streams) :
    table'.slots.reduceOption.Perm (streams.filter fun other => other.id != stream.id) := by
  have hids := (hperm.map StreamRecord.id).nodup_iff.mpr hnodup
  rw [List.map_cons, List.nodup_cons] at hids
  have hfilter := hperm.filter fun other => other.id != stream.id
  rw [List.filter_cons_of_neg (by simp), List.filter_eq_self.mpr] at hfilter
  · exact hfilter
  · intro other hmem
    refine bne_iff_ne.mpr fun hother => hids.1 ?_
    exact List.mem_map.mpr ⟨other, hmem, hother⟩

/-- **A stream less in the table** is one less in the map. -/
theorem Represents.discount (h : table.Represents streams) (hwithout : Without table table' stream) :
    (table'.discounted stream.id).Represents (streams.filter fun other => other.id != stream.id) := by
  have hperm := perm_filter h.nodup (hwithout.perm.symm.trans h.perm)
  have hall := h.perm.symm.trans (hwithout.perm.trans (hperm.cons stream))
  have hlength := hall.length_eq
  have hpushed : streams.pushed =
      if isPush stream.id then StreamMap.pushed (streams.filter fun other => other.id != stream.id) + 1
      else StreamMap.pushed (streams.filter fun other => other.id != stream.id) := by
    rw [StreamMap.pushed, hall.countP_eq, List.countP_cons, ← StreamMap.pushed]
    split <;> rfl
  have hbound := h.bound
  have hpushBound := h.pushBound
  rw [List.length_cons] at hlength
  refine { hwithout with
      capacity := hwithout.capacity.trans h.capacity
      perm := hperm
      nodup := ?_
      nonzero := ?_
      size := ?_
      pushSize := ?_
      bound := ?_
      pushBound := ?_ }
  · exact h.nodup.sublist (List.filter_sublist.map _)
  · exact fun other hmem => h.nonzero other (List.mem_of_mem_filter hmem)
  · show table'.size - 1 = _
    rw [hwithout.size, h.size]
    omega
  · show (if isPush stream.id then table'.pushSize - 1 else table'.pushSize) = _
    rw [hwithout.pushSize, h.pushSize, hpushed]
    split_ifs <;> rfl
  · omega
  · split_ifs at hpushed <;> omega

theorem StreamMap.remove_of_not_mem (h : ∀ stream ∈ streams, stream.id ≠ streamId) :
    streams.remove streamId = (streams, false) := by
  rw [StreamMap.remove, StreamMap.lookup_eq_none_iff.mpr h, List.filter_eq_self.mpr]
  · rfl
  · exact fun stream hmem => bne_iff_ne.mpr (h stream hmem)

theorem StreamMap.remove_of_mem (hnodup : (streams.map StreamRecord.id).Nodup) (h : stream ∈ streams) :
    streams.remove stream.id = (streams.filter fun other => other.id != stream.id, true) := by
  rw [StreamMap.remove, (StreamMap.lookup_eq_some_iff hnodup).mpr ⟨h, rfl⟩]
  rfl

/-- **`remove` is that of the map.** -/
theorem Represents.remove (h : table.Represents streams) (streamId : Nat) :
    (table.remove streamId).2 = (streams.remove streamId).2 ∧
      (table.remove streamId).1.Represents (streams.remove streamId).1 := by
  by_cases hid : streamId = 0
  · rw [hid, StreamMap.remove_of_not_mem h.nonzero]
    exact ⟨rfl, h⟩
  rcases h.remove_cases hid with ⟨i, stream, hslot, rfl, hremove⟩ | ⟨i, stream, hslot, rfl, hremove⟩ | ⟨hnot, hremove⟩
  · rw [hremove, StreamMap.remove_of_mem h.nodup (h.mem_of_slot (slotOf_inline hslot))]
    exact ⟨rfl, h.discount (h.without_inline hslot)⟩
  · rw [hremove, StreamMap.remove_of_mem h.nodup (h.mem_of_slot (slotOf_overflow hslot))]
    exact ⟨rfl, h.discount (h.without_overflow hslot)⟩
  · rw [hremove, StreamMap.remove_of_not_mem hnot]
    exact ⟨rfl, h⟩

/-- While an iteration is under way a removal only clears a slot, if there is one. -/
theorem Represents.remove_clears (h : table.Represents streams) (hdepth : table.snapshotIterationDepth ≠ 0) :
    (∃ stream, stream.id = streamId ∧ Clears table (table.remove streamId).1 stream) ∨
      ((∀ stream ∈ streams, stream.id ≠ streamId) ∧ (table.remove streamId).1 = table) := by
  by_cases hid : streamId = 0
  · exact .inr ⟨hid ▸ h.nonzero, by rw [Http2StreamTable.remove, if_pos hid]⟩
  rcases h.remove_cases hid with ⟨i, stream, hslot, hstream, hremove⟩ | ⟨i, stream, hslot, hstream, hremove⟩ |
    ⟨hnot, hremove⟩
  · rw [hremove]
    obtain ⟨hcapacity, hoverflow, hdepth', hclears⟩ := clears_inline hslot
    exact .inl ⟨stream, hstream, hcapacity, hoverflow, hdepth', hclears⟩
  · rw [hremove]
    obtain ⟨hcapacity, hoverflow, hdepth', hclears⟩ := clears_overflow hdepth hslot
    exact .inl ⟨stream, hstream, hcapacity, hoverflow, hdepth', hclears⟩
  · exact .inr ⟨hnot, by rw [hremove]⟩

theorem depth_remove (table : Http2StreamTable) (streamId : Nat) :
    (table.remove streamId).1.snapshotIterationDepth = table.snapshotIterationDepth := by
  have herase : ∀ i, (table.eraseOverflowAt i).snapshotIterationDepth = table.snapshotIterationDepth := by
    intro i
    rw [eraseOverflowAt]
    split <;> rfl
  rw [Http2StreamTable.remove]
  split_ifs
  · rfl
  · cases table.findInline streamId with
    | some i => rfl
    | none =>
      cases table.findOverflow streamId with
      | some i => exact herase i
      | none => rfl

/-! ## The end of the outermost iteration -/

/-- **The compaction** removes the dead slots and nothing else. -/
theorem compactLoop_spec {ids : List Nat} {overflow : List (Option StreamRecord)} (hids : ids = overflow.map key)
    (hfront : ∀ j < i, overflow[j]? ≠ some none) :
    (compactLoop ids overflow i).1 = (compactLoop ids overflow i).2.map key ∧
      none ∉ (compactLoop ids overflow i).2 ∧
      (compactLoop ids overflow i).2.reduceOption.Perm overflow.reduceOption := by
  fun_induction compactLoop ids overflow i with
  | case1 ids overflow i hlt hdead ih =>
    have hslot : overflow[i]? = some none := by
      rw [List.getElem?_eq_getElem hlt, hdead]
    obtain ⟨hids', hnone, hperm⟩ := ih (by rw [hids, swapRemove_map]) fun j hj => by
      rw [getElem?_swapRemove hj hlt]
      exact hfront j hj
    exact ⟨hids', hnone, hperm.trans ((perm_swapRemove hslot).filterMap id).symm⟩
  | case2 ids overflow i hlt hlive ih =>
    refine ih hids fun j hj => ?_
    rcases Nat.lt_succ_iff_lt_or_eq.mp hj with hj | rfl
    · exact hfront j hj
    · rw [List.getElem?_eq_getElem hlt]
      exact fun h => hlive (Option.some.inj h)
  | case3 ids overflow i hend =>
    refine ⟨hids, fun hmem => ?_, List.Perm.refl _⟩
    obtain ⟨j, hj⟩ := List.mem_iff_getElem?.mp hmem
    exact hfront j (Nat.lt_of_lt_of_le (List.getElem?_eq_some_iff.mp hj).1 (Nat.le_of_not_lt hend)) hj

theorem Represents.begin (h : table.Represents streams) : table.beginIteration.Represents streams :=
  { h with idle := fun hzero => absurd hzero (Nat.succ_ne_zero _) }

theorem Represents.finish (h : table.Represents streams) : table.endIteration.Represents streams := by
  rw [endIteration, compactOverflowIfIdle]
  split
  · rename_i hkept
    refine { h with idle := fun hzero => hkept.resolve_left fun hne => hne hzero }
  · obtain ⟨hids, hnone, hperm⟩ := compactLoop_spec h.ids fun j hj => absurd hj (Nat.not_lt_zero j)
    refine { h with ids := hids, perm := ?_, compacted := fun _ => hnone, idle := fun _ => rfl }
    refine List.Perm.trans ?_ h.perm
    show (table.inline ++ _).reduceOption.Perm (table.inline ++ table.overflow).reduceOption
    rw [List.reduceOption_append, List.reduceOption_append]
    exact hperm.append_left _

theorem depth_finish (table : Http2StreamTable) :
    table.endIteration.snapshotIterationDepth = table.snapshotIterationDepth - 1 := by
  rw [endIteration, compactOverflowIfIdle]
  split <;> rfl

/-- An inner iteration leaves the slots. -/
theorem finish_of_inner (h : table.snapshotIterationDepth - 1 ≠ 0) :
    table.endIteration.inline = table.inline ∧ table.endIteration.overflow = table.overflow := by
  rw [endIteration, compactOverflowIfIdle, if_pos (.inl h)]
  exact ⟨rfl, rfl⟩

end

end Ruvia.Http.Http2StreamTable
