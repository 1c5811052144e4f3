import Ruvia.Http.Http2StreamMap
import Ruvia.Library.StateMachine

/-!
# `Http.Http2StreamTableRuns` — every run of the stream table

Streams are created and removed, and iterations begin and go on, in any order: between two steps of an iteration its
callback may do anything to the table, with further iterations inside. The iterations under way form a stack. Beside the
table runs the map that it stands for; history keeps for each iteration the streams of its beginning that are still
there and those that it has visited. An access beyond the overflow is a `fault`.
-/

namespace Ruvia.Http.Http2StreamTable

open Library

/-! ## The machine -/

/-- A `for_each` under way. -/
structure Iteration where
  cursor : Cursor
  survivors : List StreamRecord
  visited : List StreamRecord
  deriving DecidableEq, Repr

/-- The table, the map beside it, the iterations under way, the innermost first, and those that are over. -/
structure TableState where
  table : Http2StreamTable := {}
  streams : StreamMap := []
  serial : Nat := 0
  iterations : List Iteration := []
  finished : List Iteration := []
  fault : Bool := false
  deriving DecidableEq, Repr

inductive TableAction where
  | create (streamId : Nat) (allocated : Bool)
  | remove (streamId : Nat)
  | begin
  | next
  deriving DecidableEq, Repr

/-- The callback is called for what stands in a slot, and the loop goes on. -/
def Iteration.pass (iteration : Iteration) (cursor : Cursor) (slot : Option StreamRecord) : Iteration :=
  { iteration with cursor := cursor, visited := iteration.visited ++ slot.toList }

/-- A stream of the iteration's beginning has been removed. -/
def Iteration.forget (iteration : Iteration) (streamId : Nat) : Iteration :=
  { iteration with survivors := iteration.survivors.filter fun stream => stream.id != streamId }

/-- The stream that the next step of an iteration calls the callback for. -/
def visits (table : Http2StreamTable) : Cursor → Option StreamRecord
  | .inline i => table.inline.getD i none
  | .overflow i stop => if i < stop then table.overflow.getD i none else none

/-- The next step of an iteration. -/
def TableState.advance (s : TableState) (iteration : Iteration) (iterations : List Iteration) : TableState :=
  match iteration.cursor with
  | .inline i =>
    if i < s.table.inline.length then
      { s with iterations := iteration.pass (.inline (i + 1)) (s.table.inline.getD i none) :: iterations }
    else { s with iterations := { iteration with cursor := .overflow 0 s.table.overflow.length } :: iterations }
  | .overflow i stop =>
    if i < stop then
      if s.table.overflow.length ≤ i then { s with fault := true }
      else
        { s with iterations := iteration.pass (.overflow (i + 1) stop) (s.table.overflow.getD i none) :: iterations }
    else
      { s with
        table := s.table.endIteration
        iterations := iterations
        finished := s.finished ++ [iteration] }

/-- A step. Streams have ids other than 0, which is the connection's own. -/
def TableState.step (s : TableState) : TableAction → Option TableState
  | .create streamId allocated =>
    if streamId = 0 then none
    else
      some { s with
        table := (s.table.create s.serial streamId allocated).1
        streams := (s.streams.create s.serial streamId allocated).1
        serial := s.serial + 1 }
  | .remove streamId =>
    some { s with
      table := (s.table.remove streamId).1
      streams := (s.streams.remove streamId).1
      iterations := s.iterations.map fun iteration => iteration.forget streamId }
  | .begin =>
    some { s with
      table := s.table.beginIteration
      iterations := ⟨.inline 0, s.streams, []⟩ :: s.iterations }
  | .next =>
    match s.iterations with
    | [] => none
    | iteration :: iterations => some (s.advance iteration iterations)

def tableMachine : StateMachine TableState TableAction where
  init := fun s => s = {}
  step := TableState.step

/-! ## What holds of every state -/

/-- An iteration as a walk over the slots. -/
def Iteration.walk (iteration : Iteration) : SlotWalk StreamRecord :=
  match iteration.cursor with
  | .inline i => ⟨i, none, iteration.survivors, iteration.visited⟩
  | .overflow i stop =>
    ⟨inlineCapacity + i, some (inlineCapacity + stop), iteration.survivors, iteration.visited⟩

/-- The bound of the loop over the overflow is one of the overflow. -/
def Cursor.Within (cursor : Cursor) (table : Http2StreamTable) : Prop :=
  match cursor with
  | .inline i => i ≤ inlineCapacity
  | .overflow i stop => i ≤ stop ∧ stop ≤ table.overflow.length

structure TableState.UnderWay (s : TableState) (iteration : Iteration) : Prop where
  walk : iteration.walk.Sound (slotOf s.table.slots)
  within : iteration.cursor.Within s.table
  survivors : ∀ stream ∈ iteration.survivors, stream ∈ s.streams
  visited : ∀ stream ∈ iteration.visited, stream.serial < s.serial

structure TableState.Consistent (s : TableState) : Prop where
  fault : s.fault = false
  represents : s.table.Represents s.streams
  serials : ∀ stream ∈ s.streams, stream.serial < s.serial
  depth : s.table.snapshotIterationDepth = s.iterations.length
  underWay : ∀ iteration ∈ s.iterations, s.UnderWay iteration
  finished : ∀ iteration ∈ s.finished,
    iteration.visited.Nodup ∧ ∀ stream ∈ iteration.survivors, stream ∈ iteration.visited

section

variable {s t : TableState} {iteration : Iteration} {iterations : List Iteration} {streamId : Nat} {allocated : Bool}

theorem consistent_init : TableState.Consistent {} where
  fault := rfl
  represents := represents_empty
  serials := List.forall_mem_nil _
  depth := rfl
  underWay := List.forall_mem_nil _
  finished := List.forall_mem_nil _

theorem visited_walk (iteration : Iteration) : iteration.walk.visited = iteration.visited := by
  rw [Iteration.walk]
  cases iteration.cursor <;> rfl

theorem survivors_walk (iteration : Iteration) : iteration.walk.survivors = iteration.survivors := by
  rw [Iteration.walk]
  cases iteration.cursor <;> rfl

theorem Cursor.Within.mono {cursor : Cursor} {table table' : Http2StreamTable} (h : cursor.Within table)
    (hlength : table.overflow.length ≤ table'.overflow.length) : cursor.Within table' := by
  cases cursor with
  | inline i => exact h
  | overflow i stop => exact ⟨h.1, h.2.trans hlength⟩

/-- What `create` does to the map, and to the table with it. -/
theorem create_cases (s : TableState) (streamId : Nat) (allocated : Bool) (h : s.table.Represents s.streams) :
    ((s.table.create s.serial streamId allocated).1 = s.table ∧
      (s.streams.create s.serial streamId allocated).1 = s.streams) ∨
    ((s.table.create s.serial streamId allocated).1 = (s.table.place ⟨streamId, s.serial⟩).counted streamId ∧
      (s.streams.create s.serial streamId allocated).1 = s.streams ++ [⟨streamId, s.serial⟩]) := by
  rw [Http2StreamTable.create, StreamMap.create, h.find_eq, h.size, h.pushSize]
  cases s.streams.lookup streamId with
  | some stream => exact .inl ⟨rfl, rfl⟩
  | none =>
    split_ifs
    · exact .inl ⟨rfl, rfl⟩
    · exact .inl ⟨rfl, rfl⟩
    · exact .inr ⟨rfl, rfl⟩

/-- **A stream is created.** -/
theorem TableState.Consistent.create (h : s.Consistent) (hid : streamId ≠ 0) :
    TableState.Consistent { s with
      table := (s.table.create s.serial streamId allocated).1
      streams := (s.streams.create s.serial streamId allocated).1
      serial := s.serial + 1 } := by
  have hrepresents := (@Represents.create _ _ _ s.serial h.represents hid allocated).2
  rcases create_cases s streamId allocated h.represents with ⟨htable, hstreams⟩ | ⟨htable, hstreams⟩
  · rw [htable, hstreams] at hrepresents ⊢
    refine ⟨h.fault, hrepresents, fun stream hmem => (h.serials stream hmem).trans (Nat.lt_succ_self _), h.depth, ?_,
      h.finished⟩
    intro iteration hmem
    obtain ⟨hwalk, hwithin, hsurvivors, hvisited⟩ := h.underWay iteration hmem
    exact ⟨hwalk, hwithin, hsurvivors, fun stream hmem => (hvisited stream hmem).trans (Nat.lt_succ_self _)⟩
  · rw [htable, hstreams] at hrepresents ⊢
    obtain ⟨-, hoverflow, hdepth, n, hfree, hslots⟩ := puts_place s.table ⟨streamId, s.serial⟩
    refine ⟨h.fault, hrepresents, ?_, hdepth.trans h.depth, ?_, h.finished⟩
    · refine List.forall_mem_append.mpr ⟨fun stream hmem => (h.serials stream hmem).trans (Nat.lt_succ_self _), ?_⟩
      exact List.forall_mem_singleton.mpr (Nat.lt_succ_self _)
    · intro iteration hmem
      obtain ⟨hwalk, hwithin, hsurvivors, hvisited⟩ := h.underWay iteration hmem
      refine ⟨?_, hwithin.mono hoverflow, fun stream hmem => List.mem_append_left _ (hsurvivors stream hmem),
        fun stream hmem => (hvisited stream hmem).trans (Nat.lt_succ_self _)⟩
      show iteration.walk.Sound (slotOf (s.table.place _).slots)
      rw [hslots]
      refine hwalk.put hfree fun hmem => ?_
      rw [visited_walk] at hmem
      exact absurd (hvisited _ hmem) (Nat.lt_irrefl _)

theorem Iteration.walk_forget (iteration : Iteration) (streamId : Nat) :
    (iteration.forget streamId).walk =
      { iteration.walk with survivors := iteration.survivors.filter fun stream => stream.id != streamId } := by
  rw [Iteration.walk, Iteration.walk]
  cases hcursor : iteration.cursor <;> simp only [Iteration.forget, hcursor]

/-- **A stream is removed.** -/
theorem TableState.Consistent.remove (h : s.Consistent) (streamId : Nat) :
    TableState.Consistent { s with
      table := (s.table.remove streamId).1
      streams := (s.streams.remove streamId).1
      iterations := s.iterations.map fun iteration => iteration.forget streamId } := by
  refine ⟨h.fault, (h.represents.remove streamId).2, ?_, ?_, ?_, h.finished⟩
  · exact fun stream hmem => h.serials stream (List.mem_of_mem_filter hmem)
  · rw [depth_remove, h.depth, List.length_map]
  · intro iteration' hmem'
    obtain ⟨iteration, hmem, rfl⟩ := List.mem_map.mp hmem'
    obtain ⟨hwalk, hwithin, hsurvivors, hvisited⟩ := h.underWay iteration hmem
    have hrest : ∀ stream ∈ (iteration.forget streamId).survivors, stream ∈ (s.streams.remove streamId).1 := by
      intro stream hstream
      obtain ⟨hstream, hne⟩ := List.mem_filter.mp hstream
      exact List.mem_filter.mpr ⟨hsurvivors stream hstream, hne⟩
    have hdepth : s.table.snapshotIterationDepth ≠ 0 := by
      rw [h.depth]
      exact (List.length_pos_of_mem hmem).ne'
    rcases @Represents.remove_clears _ _ streamId h.represents hdepth with ⟨stream, hstream, hclears⟩ | ⟨hnot, hsame⟩
    · obtain ⟨-, hoverflow, -, n, hslot, hslots⟩ := hclears
      refine ⟨?_, hwithin.mono hoverflow.ge, hrest, hvisited⟩
      rw [hslots, Iteration.walk_forget]
      refine hwalk.clear hslot fun other hother => ?_
      obtain ⟨hother, hne⟩ := List.mem_filter.mp hother
      rw [survivors_walk]
      refine ⟨hother, ?_⟩
      rintro rfl
      exact bne_iff_ne.mp hne hstream
    · have hforget : (iteration.forget streamId) = iteration := by
        rw [Iteration.forget, List.filter_eq_self.mpr]
        exact fun stream hstream => bne_iff_ne.mpr (hnot stream (hsurvivors stream hstream))
      rw [hforget] at hrest ⊢
      refine ⟨?_, ?_, hrest, hvisited⟩
      · rw [hsame]
        exact hwalk
      · rw [hsame]
        exact hwithin

/-- **An iteration begins.** -/
theorem TableState.Consistent.begin (h : s.Consistent) :
    TableState.Consistent { s with
      table := s.table.beginIteration
      iterations := ⟨.inline 0, s.streams, []⟩ :: s.iterations } := by
  refine ⟨h.fault, h.represents.begin, h.serials, congrArg (· + 1) h.depth, ?_, h.finished⟩
  intro iteration hmem
  rcases List.mem_cons.mp hmem with rfl | hmem
  · refine ⟨SlotWalk.sound_start fun stream hstream => h.represents.exists_slot hstream, Nat.zero_le _,
      fun _ hstream => hstream, List.forall_mem_nil _⟩
  · obtain ⟨hwalk, hwithin, hsurvivors, hvisited⟩ := h.underWay iteration hmem
    exact ⟨hwalk, hwithin, hsurvivors, hvisited⟩

/-- A step of the innermost iteration that leaves the table. -/
theorem TableState.Consistent.replace {next : Iteration} (h : s.Consistent)
    (hiterations : s.iterations = iteration :: iterations) (hnext : s.UnderWay next) :
    TableState.Consistent { s with iterations := next :: iterations } := by
  refine ⟨h.fault, h.represents, h.serials, ?_, ?_, h.finished⟩
  · rw [h.depth, hiterations]
    rfl
  · intro other hmem
    obtain ⟨hwalk, hwithin, hsurvivors, hvisited⟩ : s.UnderWay other := by
      rcases List.mem_cons.mp hmem with rfl | hmem
      · exact hnext
      · exact h.underWay other (hiterations ▸ List.mem_cons_of_mem _ hmem)
    exact ⟨hwalk, hwithin, hsurvivors, hvisited⟩

variable {slot : Option StreamRecord}

/-- The walk goes past a slot. -/
theorem TableState.Consistent.pass {walk : SlotWalk StreamRecord} (h : s.Consistent)
    (hwalk : walk.Sound (slotOf s.table.slots)) (hahead : walk.Ahead walk.next)
    (hslot : slotOf s.table.slots walk.next = slot) :
    SlotWalk.Sound (slotOf s.table.slots)
      { walk with next := walk.next + 1, visited := walk.visited ++ slot.toList } := by
  cases slot with
  | none =>
    rw [Option.toList_none, List.append_nil]
    exact hwalk.skip hslot
  | some stream => exact hwalk.visit h.represents.separate hahead hslot

theorem TableState.Consistent.visited_pass {n : Nat} (h : s.Consistent) (hunder : s.UnderWay iteration)
    (hslot : slotOf s.table.slots n = slot) :
    ∀ stream ∈ iteration.visited ++ slot.toList, stream.serial < s.serial := by
  refine List.forall_mem_append.mpr ⟨hunder.visited, fun stream hmem => ?_⟩
  obtain rfl := Option.mem_toList.mp hmem
  exact h.serials stream (h.represents.mem_of_slot hslot)

/-- **An iteration goes on.** -/
theorem TableState.Consistent.advance (h : s.Consistent) (hiterations : s.iterations = iteration :: iterations) :
    (s.advance iteration iterations).Consistent := by
  have hunder := h.underWay iteration (hiterations ▸ List.mem_cons_self)
  have ⟨hwalk, hwithin, hsurvivors, hvisited⟩ := hunder
  rw [TableState.advance]
  cases hcursor : iteration.cursor with
  | inline i =>
    dsimp only
    rw [hcursor] at hwithin
    rw [Iteration.walk, hcursor] at hwalk
    split_ifs with hlt
    · have hslot : slotOf s.table.slots i = s.table.inline.getD i none := by
        rw [slotOf, slots, List.getElem?_append_left hlt, List.getD_eq_getElem?_getD, List.getElem?_eq_getElem hlt]
        rfl
      refine h.replace hiterations ⟨h.pass hwalk ⟨Nat.le_refl _, fun _ hstop => ?_⟩ hslot, ?_, hsurvivors,
        h.visited_pass hunder hslot⟩
      · cases hstop
      · exact hlt.trans_eq h.represents.capacity
    · refine h.replace hiterations ⟨?_, ⟨Nat.zero_le _, Nat.le_refl _⟩, hsurvivors, hvisited⟩
      -- the loop over the overflow begins, and its bound is known from here on
      obtain rfl : i = inlineCapacity := by
        rw [h.represents.capacity] at hlt
        exact Nat.le_antisymm hwithin (Nat.le_of_not_lt hlt)
      refine hwalk.bound rfl fun n hn => ?_
      rw [slotOf, slots, List.getElem?_eq_none]
      · rfl
      · rw [List.length_append, h.represents.capacity]
        exact hn
  | overflow i stop =>
    dsimp only
    rw [hcursor] at hwithin
    obtain ⟨hle, hstop⟩ := hwithin
    rw [Iteration.walk, hcursor] at hwalk
    split_ifs with hlt hbeyond
    · omega
    · have hi : i < s.table.overflow.length := Nat.lt_of_not_le hbeyond
      have hslot : slotOf s.table.slots (inlineCapacity + i) = s.table.overflow.getD i none := by
        rw [slotOf, slots, ← h.represents.capacity, List.getElem?_append_right (Nat.le_add_right _ _),
          Nat.add_sub_cancel_left, List.getD_eq_getElem?_getD, List.getElem?_eq_getElem hi]
        rfl
      refine h.replace hiterations ⟨h.pass hwalk ⟨Nat.le_refl _, fun stop' hstop' => ?_⟩ hslot, ⟨hlt, hstop⟩,
        hsurvivors, h.visited_pass hunder hslot⟩
      obtain rfl := Option.some.inj hstop'
      exact Nat.add_lt_add_left hlt _
    · refine ⟨h.fault, h.represents.finish, h.serials, ?_, ?_, ?_⟩
      · rw [depth_finish, h.depth, hiterations]
        rfl
      · intro other hmem
        obtain ⟨hwalk, hwithin, hsurvivors, hvisited⟩ := h.underWay other (hiterations ▸ List.mem_cons_of_mem _ hmem)
        have hinner : s.table.snapshotIterationDepth - 1 ≠ 0 := by
          rw [h.depth, hiterations, List.length_cons, Nat.add_sub_cancel]
          exact (List.length_pos_of_mem hmem).ne'
        obtain ⟨hinline, hoverflow⟩ := finish_of_inner hinner
        refine ⟨?_, ?_, hsurvivors, hvisited⟩
        · show other.walk.Sound (slotOf (s.table.endIteration.inline ++ s.table.endIteration.overflow))
          rw [hinline, hoverflow]
          exact hwalk
        · exact hwithin.mono (congrArg List.length hoverflow).ge
      · refine List.forall_mem_append.mpr ⟨h.finished, List.forall_mem_singleton.mpr ⟨hwalk.nodup, ?_⟩⟩
        refine hwalk.over fun n hahead => ?_
        have hn := hahead.2 _ rfl
        have hn' := hahead.1
        dsimp only at hn'
        omega

/-- **Every step keeps it.** -/
theorem TableState.Consistent.step {action : TableAction} (h : s.Consistent) (hstep : s.step action = some t) :
    t.Consistent := by
  cases action with
  | create streamId allocated =>
    rw [TableState.step] at hstep
    split_ifs at hstep with hid
    obtain rfl := Option.some.inj hstep
    exact h.create hid
  | remove streamId =>
    obtain rfl := Option.some.inj hstep
    exact h.remove streamId
  | begin =>
    obtain rfl := Option.some.inj hstep
    exact h.begin
  | next =>
    rw [TableState.step] at hstep
    cases hiterations : s.iterations with
    | nil =>
      rw [hiterations] at hstep
      cases hstep
    | cons iteration iterations =>
      rw [hiterations] at hstep
      obtain rfl := Option.some.inj hstep
      exact h.advance hiterations

/-- **Every reachable state** is consistent. -/
theorem consistent_of_reachable (h : tableMachine.Reachable s) : s.Consistent := by
  refine StateMachine.Reachable.invariant (P := TableState.Consistent) ?_ ?_ h
  · rintro s rfl
    exact consistent_init
  · intro s action t hs hstep
    exact hs.step hstep

variable {stream : StreamRecord}

theorem getElem?_of_getD {slots : List (Option StreamRecord)} {i : Nat} (h : slots.getD i none = some stream) :
    slots[i]? = some (some stream) := by
  rw [List.getD_eq_getElem?_getD] at h
  cases hslot : slots[i]? with
  | none =>
    rw [hslot] at h
    cases h
  | some slot =>
    rw [hslot] at h
    exact congrArg some h

/-- What an iteration comes to next is a stream of the map, and it has not been there before. -/
theorem TableState.Consistent.visits (h : s.Consistent) (hmem : iteration ∈ s.iterations)
    (hvisits : visits s.table iteration.cursor = some stream) : stream ∈ s.streams ∧ stream ∉ iteration.visited := by
  have hwalk := (h.underWay iteration hmem).walk
  -- it is enough that the stream stands in a slot ahead
  suffices hahead : ∃ n, iteration.walk.Ahead n ∧ slotOf s.table.slots n = some stream by
    obtain ⟨n, hahead, hslot⟩ := hahead
    refine ⟨h.represents.mem_of_slot hslot, fun hvisited => ?_⟩
    rw [← visited_walk] at hvisited
    exact hwalk.passed stream hvisited n hahead hslot
  rw [Iteration.walk]
  cases hcursor : iteration.cursor with
  | inline i =>
    rw [hcursor] at hvisits
    refine ⟨i, ⟨Nat.le_refl _, fun stop hstop => ?_⟩, slotOf_inline (getElem?_of_getD hvisits)⟩
    cases hstop
  | overflow i stop =>
    rw [hcursor, Http2StreamTable.visits] at hvisits
    split_ifs at hvisits with hlt
    refine ⟨inlineCapacity + i, ⟨Nat.le_refl _, fun stop' hstop => ?_⟩, ?_⟩
    · obtain rfl := Option.some.inj hstop
      exact Nat.add_lt_add_left hlt _
    · rw [← h.represents.capacity]
      exact slotOf_overflow (getElem?_of_getD hvisits)

/-! ## The end of the iterations -/

/-- The steps that an iteration still takes when nothing else happens. -/
def Cursor.weight (table : Http2StreamTable) : Cursor → Nat
  | .inline i => inlineCapacity - i + table.overflow.length + 2
  | .overflow i stop => stop - i + 1

def weights (table : Http2StreamTable) (iterations : List Iteration) : Nat :=
  (iterations.map fun iteration => iteration.cursor.weight table).sum

theorem weights_cons (table : Http2StreamTable) (iteration : Iteration) (iterations : List Iteration) :
    weights table (iteration :: iterations) = iteration.cursor.weight table + weights table iterations := by
  rw [weights, List.map_cons, List.sum_cons, weights]

/-- An iteration that goes on comes closer to its end. -/
theorem TableState.Consistent.weights_advance (h : s.Consistent)
    (hiterations : s.iterations = iteration :: iterations) :
    weights (s.advance iteration iterations).table (s.advance iteration iterations).iterations <
      weights s.table s.iterations := by
  obtain ⟨-, hwithin, -, -⟩ := h.underWay iteration (hiterations ▸ List.mem_cons_self)
  have hcapacity := h.represents.capacity
  rw [TableState.advance, hiterations]
  cases hcursor : iteration.cursor with
  | inline i =>
    rw [hcursor] at hwithin
    have hwithin : i ≤ inlineCapacity := hwithin
    dsimp only
    split_ifs with hlt
    · rw [weights_cons, weights_cons, hcursor]
      refine Nat.add_lt_add_right ?_ _
      show inlineCapacity - (i + 1) + s.table.overflow.length + 2 < inlineCapacity - i + s.table.overflow.length + 2
      omega
    · rw [weights_cons, weights_cons, hcursor]
      refine Nat.add_lt_add_right ?_ _
      show s.table.overflow.length - 0 + 1 < inlineCapacity - i + s.table.overflow.length + 2
      omega
  | overflow i stop =>
    rw [hcursor] at hwithin
    obtain ⟨hle, hstop⟩ := hwithin
    dsimp only
    split_ifs with hlt hbeyond
    · omega
    · rw [weights_cons, weights_cons, hcursor]
      refine Nat.add_lt_add_right ?_ _
      show stop - (i + 1) + 1 < stop - i + 1
      omega
    · -- the iterations outside still see the same slots
      have hsame : weights s.table.endIteration iterations = weights s.table iterations := by
        refine congrArg List.sum (List.map_congr_left fun other hmem => ?_)
        have hinner : s.table.snapshotIterationDepth - 1 ≠ 0 := by
          rw [h.depth, hiterations, List.length_cons, Nat.add_sub_cancel]
          exact (List.length_pos_of_mem hmem).ne'
        have hoverflow := (finish_of_inner hinner).2
        cases other.cursor with
        | inline i => exact congrArg (fun slots => inlineCapacity - i + List.length slots + 2) hoverflow
        | overflow i stop => rfl
      rw [hsame, weights_cons, hcursor]
      exact Nat.lt_add_of_pos_left (Nat.succ_pos _)

/-- **The iterations end**: going on leads to a state without one. -/
theorem TableState.Consistent.exists_finished (h : s.Consistent) :
    ∃ n, (tableMachine.run s (List.replicate n .next)).iterations = [] := by
  induction hweight : weights s.table s.iterations using Nat.strong_induction_on generalizing s with
  | _ weight ih =>
    cases hiterations : s.iterations with
    | nil => exact ⟨0, hiterations⟩
    | cons iteration iterations =>
      have hstep : s.step .next = some (s.advance iteration iterations) := by
        rw [TableState.step, hiterations]
      obtain ⟨n, hn⟩ := ih _ (hweight ▸ h.weights_advance hiterations) (h.step hstep) rfl
      refine ⟨n + 1, ?_⟩
      have hrun : tableMachine.run s (List.replicate (n + 1) .next) =
          tableMachine.run ((s.step .next).getD s) (List.replicate n .next) := rfl
      rw [hrun, hstep]
      exact hn

end

/-! ## The refinement -/

theorem StreamMap.create_refused {streams : StreamMap} {serial streamId : Nat} {allocated : Bool} :
    (streams.create serial streamId allocated).2 = .refused ↔ streams.lookup streamId = none ∧
      (maxStreams ≤ streams.length ∨ (isPush streamId = true ∧ maxPushStreams ≤ streams.pushed)) := by
  rw [StreamMap.create]
  cases streams.lookup streamId with
  | some stream => simp
  | none =>
    split_ifs with hroom
    all_goals simp [hroom]

/-- **The stream table is a bounded finite map under iteration.** In every state that creations, removals and the steps
of iterations lead to, in any order: lookups, creations and removals answer as the map does, a creation is refused
exactly at the bounds, and the counters are those of the map; what an iteration comes to is a stream of the map that it
has not visited; an iteration that is over has visited each stream that was there all the time, and none twice; and
without an iteration under way there is no dead slot. -/
theorem http2_stream_table {s : TableState} (h : tableMachine.Reachable s) :
    s.fault = false ∧
      (∀ streamId, s.table.find streamId = s.streams.lookup streamId) ∧
      (∀ streamId, streamId ≠ 0 → ∀ allocated,
        (s.table.create s.serial streamId allocated).2 = (s.streams.create s.serial streamId allocated).2 ∧
        ((s.table.create s.serial streamId allocated).2 = .refused ↔ s.streams.lookup streamId = none ∧
          (maxStreams ≤ s.streams.length ∨ (isPush streamId = true ∧ maxPushStreams ≤ s.streams.pushed)))) ∧
      (∀ streamId, (s.table.remove streamId).2 = (s.streams.remove streamId).2) ∧
      (s.streams.map StreamRecord.id).Nodup ∧
      s.table.size = s.streams.length ∧ s.table.pushSize = s.streams.pushed ∧
      s.streams.length ≤ maxStreams ∧ s.streams.pushed ≤ maxPushStreams ∧
      (∀ iteration ∈ s.iterations, iteration.visited.Nodup ∧
        ∀ stream, visits s.table iteration.cursor = some stream →
          stream ∈ s.streams ∧ stream ∉ iteration.visited) ∧
      (∀ iteration ∈ s.finished, iteration.visited.Nodup ∧
        ∀ stream ∈ iteration.survivors, stream ∈ iteration.visited) ∧
      (s.iterations = [] → none ∉ s.table.overflow) ∧
      ∃ n, (tableMachine.run s (List.replicate n .next)).iterations = [] := by
  have hs := consistent_of_reachable h
  have hr := hs.represents
  refine ⟨hs.fault, hr.find_eq, ?_, fun streamId => (hr.remove streamId).1, hr.nodup, hr.size, hr.pushSize, hr.bound,
    hr.pushBound, ?_, hs.finished, ?_, ?_⟩
  · intro streamId hid allocated
    refine ⟨(hr.create hid allocated).1, ?_⟩
    rw [(hr.create hid allocated).1, StreamMap.create_refused]
  · intro iteration hmem
    refine ⟨?_, fun stream hvisits => hs.visits hmem hvisits⟩
    rw [← visited_walk]
    exact (hs.underWay iteration hmem).walk.nodup
  · intro hnil
    refine hr.compacted (hr.idle ?_)
    rw [hs.depth, hnil]
    rfl
  · exact hs.exists_finished

/-- Three streams; while the first is visited it and the third are removed and a fourth is created. -/
theorem http2_stream_table_reentrant :
    let s := tableMachine.run {} [.create 1 true, .create 3 true, .create 5 true, .begin, .next, .remove 1, .remove 5,
      .create 7 true, .next, .next, .next, .next]
    s.finished = [⟨.overflow 1 1, [⟨3, 1⟩], [⟨1, 0⟩, ⟨3, 1⟩]⟩] ∧ none ∉ s.table.overflow := by
  refine ⟨by decide +kernel, ?_⟩
  have hreachable : tableMachine.Reachable (tableMachine.run {} [.create 1 true, .create 3 true, .create 5 true, .begin,
      .next, .remove 1, .remove 5, .create 7 true, .next, .next, .next, .next]) :=
    (StateMachine.Reachable.start rfl).run _
  obtain ⟨-, -, -, -, -, -, -, -, -, -, -, hdead, -⟩ := http2_stream_table hreachable
  exact hdead (by decide +kernel)

end Ruvia.Http.Http2StreamTable
