import Ruvia.Library.SlotWalk

/-!
# `Http.Http2StreamTable` — the live streams of a connection

`http2_stream_table.h`. Two slots stand in the table itself, further streams in an overflow with their ids beside them.
While the table is iterated over, an overflow entry that is removed stays as a dead slot with the id 0, which no stream
has; the outermost iteration removes the dead slots at its end. A record's serial number tells it from a later stream of
the same id.
-/

namespace Ruvia.Http.Http2StreamTable

/-- `http2_stream_state`, as far as the table reads it. -/
structure StreamRecord where
  id : Nat
  serial : Nat
  deriving DecidableEq, Repr

/-- `http2_local_settings::max_concurrent_streams`. -/
def maxConcurrentStreams : Nat := 128

def maxStreams : Nat := maxConcurrentStreams * 4

def maxPushStreams : Nat := maxStreams - maxConcurrentStreams

def inlineCapacity : Nat := 2

/-- The parity that pushed streams have. -/
def isPush (streamId : Nat) : Bool := streamId % 2 == 0

end Ruvia.Http.Http2StreamTable

namespace Ruvia.Http

open Library Http2StreamTable

/-- `http2_stream_table`. -/
structure Http2StreamTable where
  inline : List (Option StreamRecord) := List.replicate inlineCapacity none
  overflowIds : List Nat := []
  overflow : List (Option StreamRecord) := []
  size : Nat := 0
  pushSize : Nat := 0
  snapshotIterationDepth : Nat := 0
  overflowNeedsCompact : Bool := false
  deriving DecidableEq, Repr

namespace Http2StreamTable

/-- The test of the loops over the inline slots. -/
def holds (streamId : Nat) (slot : Option StreamRecord) : Bool := slot.any fun stream => stream.id == streamId

def findInline (table : Http2StreamTable) (streamId : Nat) : Option Nat := table.inline.findIdx? (holds streamId)

def findOverflow (table : Http2StreamTable) (streamId : Nat) : Option Nat :=
  table.overflowIds.findIdx? fun id => id == streamId

def find (table : Http2StreamTable) (streamId : Nat) : Option StreamRecord :=
  if streamId = 0 then none
  else
    match table.findInline streamId with
    | some i => table.inline.getD i none
    | none =>
      match table.findOverflow streamId with
      | some i => table.overflow.getD i none
      | none => none

/-- The answer of `create`: a record, the null pointer, or an exception of the memory resource. -/
inductive CreateAnswer where
  | existing (stream : StreamRecord)
  | created (stream : StreamRecord)
  | refused
  | failed
  deriving DecidableEq, Repr

/-- The counters behind a `create`. -/
def counted (table : Http2StreamTable) (streamId : Nat) : Http2StreamTable :=
  { table with
    size := table.size + 1
    pushSize := if isPush streamId then table.pushSize + 1 else table.pushSize }

/-- The record is put into the first free inline slot, or behind the overflow. -/
def place (table : Http2StreamTable) (stream : StreamRecord) : Http2StreamTable :=
  match table.inline.findIdx? Option.isNone with
  | some i => { table with inline := table.inline.set i (some stream) }
  | none =>
    { table with
      overflowIds := table.overflowIds ++ [stream.id]
      overflow := table.overflow ++ [some stream] }

/-- `create`; `allocated` says that the record and its places could be allocated. -/
def create (table : Http2StreamTable) (serial streamId : Nat) (allocated : Bool) : Http2StreamTable × CreateAnswer :=
  match table.find streamId with
  | some stream => (table, .existing stream)
  | none =>
    if maxStreams ≤ table.size ∨ (isPush streamId ∧ maxPushStreams ≤ table.pushSize) then (table, .refused)
    else if allocated = false then (table, .failed)
    else ((table.place ⟨streamId, serial⟩).counted streamId, .created ⟨streamId, serial⟩)

/-- `erase_overflow_at`. -/
def eraseOverflowAt (table : Http2StreamTable) (index : Nat) : Http2StreamTable :=
  if table.snapshotIterationDepth ≠ 0 then
    { table with
      overflowIds := table.overflowIds.set index 0
      overflow := table.overflow.set index none
      overflowNeedsCompact := true }
  else
    { table with
      overflowIds := swapRemove table.overflowIds index
      overflow := swapRemove table.overflow index }

/-- The counters behind a `remove`. -/
def discounted (table : Http2StreamTable) (streamId : Nat) : Http2StreamTable :=
  { table with
    size := table.size - 1
    pushSize := if isPush streamId then table.pushSize - 1 else table.pushSize }

def remove (table : Http2StreamTable) (streamId : Nat) : Http2StreamTable × Bool :=
  if streamId = 0 then (table, false)
  else
    match table.findInline streamId with
    | some i => ({ table with inline := table.inline.set i none }.discounted streamId, true)
    | none =>
      match table.findOverflow streamId with
      | some i => ((table.eraseOverflowAt i).discounted streamId, true)
      | none => (table, false)

/-- The loop of `compact_overflow_if_idle`. -/
def compactLoop (ids : List Nat) (overflow : List (Option StreamRecord)) (i : Nat) :
    List Nat × List (Option StreamRecord) :=
  if h : i < overflow.length then
    if overflow[i] = none then compactLoop (swapRemove ids i) (swapRemove overflow i) i
    else compactLoop ids overflow (i + 1)
  else (ids, overflow)
termination_by overflow.length - i
decreasing_by
  · rw [length_swapRemove h]
    omega
  · omega

def compactOverflowIfIdle (table : Http2StreamTable) : Http2StreamTable :=
  if table.snapshotIterationDepth ≠ 0 ∨ table.overflowNeedsCompact = false then table
  else
    { table with
      overflowIds := (compactLoop table.overflowIds table.overflow 0).1
      overflow := (compactLoop table.overflowIds table.overflow 0).2
      overflowNeedsCompact := false }

/-- The constructor of `snapshot_iteration_guard_type`. -/
def beginIteration (table : Http2StreamTable) : Http2StreamTable :=
  { table with snapshotIterationDepth := table.snapshotIterationDepth + 1 }

/-- Its destructor. -/
def endIteration (table : Http2StreamTable) : Http2StreamTable :=
  { table with snapshotIterationDepth := table.snapshotIterationDepth - 1 }.compactOverflowIfIdle

/-- Where a `for_each` stands: before an inline slot, or before an overflow slot, with the bound of that loop. -/
inductive Cursor where
  | inline (i : Nat)
  | overflow (i stop : Nat)
  deriving DecidableEq, Repr

end Http2StreamTable

end Ruvia.Http
