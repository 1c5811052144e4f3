import Ruvia.Library.StateMachine
import Mathlib.Data.List.Nodup
import Mathlib.Data.List.Range
import Mathlib.Logic.Function.Basic

/-!
# `Core.WorkerQueue` — the task queue of a worker

The queue of `worker_dispatcher`: `post` and `post_factory` from any thread, `drain` on the worker, a task that
throws, `close`, the failure path of `run_context`, and `detach_context`. Every critical section of `mutex_` is one
action. A post goes through two of them, with the move of its task into the reserved node (or the factory) in
between; a drain through one in front of its batch and one behind it, with the tasks in between. Posts are numbered,
and the task of a post has its number; the intrusive lists are lists.
-/

namespace Ruvia.Core

open Library Function

inductive PostStatus where
  | accepted
  | workerStopping
  | queueFull
  deriving DecidableEq, Repr

/-- A node with the task that is in it. -/
structure DispatchNode where
  slot : Nat
  task : Nat
  deriving DecidableEq, Repr

/-- One post, by the section it has come to. -/
inductive PostCall where
  | idle
  /-- Reserved a node; its task is still to be published. -/
  | reserved (slot : Nat)
  /-- In `release_abandoned_node`; `accepted` tells a dropped task from a factory or a publication that threw. -/
  | releasing (slot : Nat) (accepted : Bool)
  | accepted
  | rejected (status : PostStatus)
  | threw
  deriving DecidableEq, Repr

/-- Where the worker is in `drain`. -/
inductive DrainPhase where
  | idle
  /-- In the batch: the tasks that ended, the one that runs, those that are still to run. -/
  | running (completed : List DispatchNode) (current : Option DispatchNode) (remaining : List DispatchNode)
  /-- `drain` threw; `run_context` is still to handle the failure. -/
  | escaping
  deriving DecidableEq, Repr

/-- The queue of `worker_dispatcher`. `posted` counts the drains queued on the context, `abandons` the calls of
`abandon_queued` that are to come, and `chain` has the nodes that are to be released by such calls or by a batch that
threw. `postFailed` records that `asio::post` threw behind a batch. The rest records the tasks: in the order of
publication, in the order they ran, those destroyed unrun, and those accepted but dropped instead of published. -/
structure WorkerQueue where
  capacity : Nat
  free : List Nat
  ready : List DispatchNode := []
  readyCount : Nat := 0
  pendingCount : Nat := 0
  activeCount : Nat := 0
  accepting : Bool := true
  contextAttached : Bool := true
  drainScheduled : Bool := false
  abandonDrain : Bool := false
  posted : Nat := 0
  drain : DrainPhase := .idle
  abandons : Nat := 0
  chain : List DispatchNode := []
  calls : Nat → PostCall := fun _ => .idle
  undefined : Bool := false
  postFailed : Bool := false
  published : List Nat := []
  ran : List Nat := []
  destroyed : List Nat := []
  dropped : List Nat := []

inductive WorkerQueueAction where
  | reserve (k : Nat)
  | factoryThrows (k : Nat)
  | publish (k : Nat) (postThrows : Bool)
  | release (k : Nat)
  | drain
  | startTask
  | finishTask
  | throwTask
  | endBatch (postThrows : Bool)
  | handleFailure
  | close
  | detach
  | abandonQueued
  | releaseAbandoned (node : DispatchNode)

namespace WorkerQueue

def init (capacity : Nat) : WorkerQueue := { capacity, free := List.range (2 * capacity) }

variable (s : WorkerQueue)

def setCall (k : Nat) (call : PostCall) : WorkerQueue := { s with calls := update s.calls k call }

/-- `reserve`. The free list is not checked; taking a node from an empty one would be undefined. -/
def reserve (k : Nat) : WorkerQueue :=
  if s.contextAttached = false ∨ s.accepting = false then s.setCall k (.rejected .workerStopping)
  else if s.pendingCount = s.capacity then s.setCall k (.rejected .queueFull)
  else
    match s.free with
    | [] => { s with undefined := true }
    | slot :: free => { s with free, pendingCount := s.pendingCount + 1 }.setCall k (.reserved slot)

/-- `schedule_drain_locked`, when `asio::post` does not throw. -/
def scheduleDrain : WorkerQueue :=
  if s.drainScheduled then s else { s with posted := s.posted + 1, drainScheduled := true }

def pushReady (node : DispatchNode) : WorkerQueue :=
  { s with ready := s.ready ++ [node], readyCount := s.readyCount + 1 }

/-- The section of `publish`; `postThrows` is what `asio::post` would do. -/
def publish (k slot : Nat) (postThrows : Bool) : WorkerQueue :=
  if s.abandonDrain = false ∧ s.contextAttached = true then
    if postThrows = true ∧ s.drainScheduled = false then s.setCall k (.releasing slot false)
    else
      { (s.scheduleDrain.pushReady ⟨slot, k⟩).setCall k .accepted with published := s.published ++ [k] }
  else s.setCall k (.releasing slot true)

/-- The section of `release_abandoned_node`. -/
def releaseNode (slot : Nat) : WorkerQueue := { s with free := slot :: s.free, pendingCount := s.pendingCount - 1 }

/-- `release_abandoned_node` of a post. -/
def release (k slot : Nat) (accepted : Bool) : WorkerQueue :=
  let s := s.releaseNode slot
  if accepted then { s.setCall k .accepted with dropped := s.dropped ++ [k] } else s.setCall k .threw

/-- The first section of `drain`; an abandoned one goes on to `abandon_queued`. -/
def beginDrain : WorkerQueue :=
  if s.abandonDrain then { s with drainScheduled := false, abandons := s.abandons + 1 }
  else if s.readyCount = 0 then { s with drainScheduled := false }
  else
    { s with
      ready := []
      readyCount := 0
      pendingCount := s.pendingCount - s.readyCount
      activeCount := s.activeCount + s.readyCount
      drain := .running [] none s.ready }

/-- `begin_stopping_locked`; what the hooks do is not part of the queue. -/
def beginStopping (abandonDrain : Bool) : WorkerQueue :=
  let s := if abandonDrain then { s with drainScheduled := false, abandonDrain := true } else s
  { s with accepting := false }

/-- The section of the handler in `drain`: the prefix of the batch through the failed task is free again, the rest is
pending again and released next. -/
def failBatch (completed : List DispatchNode) (failed : DispatchNode) (remaining : List DispatchNode) : WorkerQueue :=
  let s :=
    { s with
      free := (completed ++ [failed]).map DispatchNode.slot ++ s.free
      activeCount := s.activeCount - (completed.length + 1 + remaining.length)
      pendingCount := s.pendingCount + remaining.length }
  { s.beginStopping true with
    chain := s.chain ++ remaining
    abandons := s.abandons + 1
    drain := .escaping }

/-- The last section of `drain`. -/
def endBatch (completed : List DispatchNode) (postThrows : Bool) : WorkerQueue :=
  let s :=
    { s with
      free := completed.map DispatchNode.slot ++ s.free
      activeCount := s.activeCount - completed.length
      drainScheduled := false
      drain := .idle }
  if s.abandonDrain then { s with abandons := s.abandons + 1 }
  else if s.readyCount ≠ 0 then
    if postThrows then { s with drain := .escaping, postFailed := true } else s.scheduleDrain
  else s

/-- The first section of `handle_failure`, in front of `abandon_queued`. -/
def handleFailure : WorkerQueue :=
  { s.beginStopping true with abandons := s.abandons + 1, drain := .idle }

/-- The section of `detach_context`, in front of `abandon_queued`. -/
def detach : WorkerQueue :=
  if s.contextAttached = false then s
  else { s with accepting := false, contextAttached := false, abandonDrain := true, abandons := s.abandons + 1 }

/-- The section of `abandon_queued`. -/
def abandonQueued : WorkerQueue :=
  { s with ready := [], readyCount := 0, chain := s.chain ++ s.ready, abandons := s.abandons - 1 }

/-- One action. -/
def step : WorkerQueueAction → Option WorkerQueue
  | .reserve k => if s.calls k = .idle then some (s.reserve k) else none
  | .factoryThrows k =>
    match s.calls k with
    | .reserved slot => some (s.setCall k (.releasing slot false))
    | _ => none
  | .publish k postThrows =>
    match s.calls k with
    | .reserved slot => some (s.publish k slot postThrows)
    | _ => none
  | .release k =>
    match s.calls k with
    | .releasing slot accepted => some (s.release k slot accepted)
    | _ => none
  | .drain => if s.posted ≠ 0 ∧ s.drain = .idle then some { s with posted := s.posted - 1 }.beginDrain else none
  | .startTask =>
    match s.drain with
    | .running completed none (node :: remaining) =>
      some { s with drain := .running completed (some node) remaining, ran := s.ran ++ [node.task] }
    | _ => none
  | .finishTask =>
    match s.drain with
    | .running completed (some node) remaining =>
      some { s with drain := .running (completed ++ [node]) none remaining }
    | _ => none
  | .throwTask =>
    match s.drain with
    | .running completed (some node) remaining => some (s.failBatch completed node remaining)
    | _ => none
  | .endBatch postThrows =>
    match s.drain with
    | .running completed none [] => some (s.endBatch completed postThrows)
    | _ => none
  | .handleFailure => if s.drain = .idle ∨ s.drain = .escaping then some s.handleFailure else none
  | .close => some (s.beginStopping false)
  | .detach => some s.detach
  | .abandonQueued => if s.abandons ≠ 0 then some s.abandonQueued else none
  | .releaseAbandoned node =>
    if node ∈ s.chain then
      some { s.releaseNode node.slot with chain := s.chain.erase node, destroyed := s.destroyed ++ [node.task] }
    else none

end WorkerQueue

/-- The runs of one queue. -/
def workerQueueMachine (capacity : Nat) : StateMachine WorkerQueue WorkerQueueAction where
  init s := s = WorkerQueue.init capacity
  step := WorkerQueue.step

/-! ## What every state keeps -/

namespace DrainPhase

/-- The nodes of the batch. -/
def nodes : DrainPhase → List DispatchNode
  | .running completed current remaining => completed ++ current.toList ++ remaining
  | .idle | .escaping => []

/-- The tasks of the batch that are still to run. -/
def remaining : DrainPhase → List Nat
  | .running _ _ remaining => remaining.map DispatchNode.task
  | .idle | .escaping => []

def isRunning : DrainPhase → Bool
  | .running _ _ _ => true
  | .idle | .escaping => false

end DrainPhase

/-- The node a post has reserved. -/
def PostCall.slot : PostCall → Option Nat
  | .reserved slot | .releasing slot _ => some slot
  | .idle | .accepted | .rejected _ | .threw => none

/-- **Every node is free, held by a post, ready, to be released, or in the batch**, once. -/
structure DispatchNodesAgree (capacity : Nat) (free held ready chain active : List Nat)
    (pendingCount activeCount : Nat) : Prop where
  slots : ∀ x, free.count x + held.count x + ready.count x + chain.count x + active.count x =
    (List.range (2 * capacity)).count x
  pending : pendingCount = held.length + ready.length + chain.length
  batch : activeCount = active.length

/-- The posts hold the nodes. -/
structure PostsAgree (calls : Nat → PostCall) (holders : List (Nat × Nat)) : Prop where
  nodup : holders.Nodup
  owners : ∀ k slot, (k, slot) ∈ holders ↔ (calls k).slot = some slot

/-- **Every accepted task is in one place**, and the tasks run in the order of their publication. -/
structure TasksAgree (calls : Nat → PostCall) (published ran remaining ready chain destroyed dropped : List Nat) :
    Prop where
  order : ran ++ remaining <+: published
  places : ∀ k, published.count k = ran.count k + remaining.count k + ready.count k + chain.count k + destroyed.count k
  once : ∀ k, published.count k + dropped.count k = if calls k = .accepted then 1 else 0

namespace WorkerQueue

/-- **The invariant of the queue**, with the nodes its posts hold. -/
structure Agrees (s : WorkerQueue) (holders : List (Nat × Nat)) : Prop where
  nodes : DispatchNodesAgree s.capacity s.free (holders.map Prod.snd) (s.ready.map DispatchNode.slot)
    (s.chain.map DispatchNode.slot) (s.drain.nodes.map DispatchNode.slot) s.pendingCount s.activeCount
  posts : PostsAgree s.calls holders
  tasks : TasksAgree s.calls s.published s.ran s.drain.remaining (s.ready.map DispatchNode.task)
    (s.chain.map DispatchNode.task) s.destroyed s.dropped
  readyCount : s.readyCount = s.ready.length
  active : s.activeCount ≤ s.capacity
  accepting : s.accepting = true → s.abandonDrain = false
  attached : s.abandonDrain = false → s.contextAttached = true
  bound : s.abandonDrain = false → s.pendingCount ≤ s.capacity
  scheduled : s.abandonDrain = false → s.posted + s.drain.isRunning.toNat = s.drainScheduled.toNat
  woken : s.abandonDrain = false → s.ready ≠ [] → s.drainScheduled = true ∨ s.drain = .escaping ∧ s.postFailed = true
  abandoned : s.abandonDrain = true → s.ready ≠ [] → s.abandons ≠ 0
  whole : s.abandonDrain = false → s.chain = [] ∧ s.destroyed = [] ∧ s.dropped = [] ∧
    s.published = s.ran ++ s.drain.remaining ++ s.ready.map DispatchNode.task
  dropping : ∀ k slot, s.calls k = .releasing slot true → s.abandonDrain = true
  defined : s.undefined = false
  called : s.abandons ≠ 0 → s.abandonDrain = true

end WorkerQueue

/-! ## Nodes -/

namespace DispatchNodesAgree

variable {capacity slot pendingCount activeCount : Nat} {free held held' ready chain active : List Nat}

/-- A post takes a free node. -/
theorem reserve (h : DispatchNodesAgree capacity (slot :: free) held ready chain active pendingCount activeCount) :
    DispatchNodesAgree capacity free (slot :: held) ready chain active (pendingCount + 1) activeCount := by
  have hpending := h.pending
  refine ⟨fun x => ?_, ?_, h.batch⟩
  · have hslots := h.slots x
    rw [List.count_cons] at hslots ⊢
    omega
  · rw [List.length_cons]
    omega

section

variable (h : DispatchNodesAgree capacity free held ready chain active pendingCount activeCount)
include h

/-- A post publishes the node it holds. -/
theorem publish
    (hheld : held.Perm (slot :: held')) :
    DispatchNodesAgree capacity free held' (ready ++ [slot]) chain active pendingCount activeCount := by
  have hpending := h.pending
  have hlength := hheld.length_eq
  rw [List.length_cons] at hlength
  refine ⟨fun x => ?_, ?_, h.batch⟩
  · have hslots := h.slots x
    have hcount := hheld.count_eq x
    rw [List.count_cons] at hcount
    rw [List.count_append, List.count_singleton]
    omega
  · rw [List.length_append, List.length_singleton]
    omega

/-- A post gives back the node it holds. -/
theorem release
    (hheld : held.Perm (slot :: held')) :
    DispatchNodesAgree capacity (slot :: free) held' ready chain active (pendingCount - 1) activeCount := by
  have hpending := h.pending
  have hlength := hheld.length_eq
  rw [List.length_cons] at hlength
  refine ⟨fun x => ?_, by omega, h.batch⟩
  have hslots := h.slots x
  have hcount := hheld.count_eq x
  rw [List.count_cons] at hcount ⊢
  omega

end

/-- The ready nodes become the batch. -/
theorem splice (h : DispatchNodesAgree capacity free held ready chain [] pendingCount activeCount) :
    DispatchNodesAgree capacity free held [] chain ready (pendingCount - ready.length)
      (activeCount + ready.length) := by
  have hpending := h.pending
  have hbatch := h.batch
  refine ⟨fun x => ?_, ?_, ?_⟩
  · have hslots := h.slots x
    omega
  · rw [List.length_nil]
    omega
  · rw [List.length_nil] at hbatch
    omega

/-- The nodes of a batch that threw are free, or to be released. -/
theorem fail {ended rest : List Nat} (h : DispatchNodesAgree capacity free held ready chain (ended ++ rest)
    pendingCount activeCount) :
    DispatchNodesAgree capacity (ended ++ free) held ready (chain ++ rest) [] (pendingCount + rest.length)
      (activeCount - (ended.length + rest.length)) := by
  have hpending := h.pending
  have hbatch := h.batch
  rw [List.length_append] at hbatch
  refine ⟨fun x => ?_, ?_, ?_⟩
  · have hslots := h.slots x
    rw [List.count_append] at hslots
    rw [List.count_append, List.count_append, List.count_nil]
    omega
  · rw [List.length_append]
    omega
  · rw [List.length_nil]
    omega

section

variable (h : DispatchNodesAgree capacity free held ready chain active pendingCount activeCount)
include h

/-- What was ready is to be released. -/
theorem abandon : DispatchNodesAgree capacity free held [] (chain ++ ready) active pendingCount activeCount := by
  have hpending := h.pending
  refine ⟨fun x => ?_, ?_, h.batch⟩
  · have hslots := h.slots x
    rw [List.count_append, List.count_nil]
    omega
  · rw [List.length_append, List.length_nil]
    omega

/-- An abandoned node is released. -/
theorem discard {chain' : List Nat} (hchain : chain.Perm (slot :: chain')) :
    DispatchNodesAgree capacity (slot :: free) held ready chain' active (pendingCount - 1) activeCount := by
  have hpending := h.pending
  have hlength := hchain.length_eq
  rw [List.length_cons] at hlength
  refine ⟨fun x => ?_, by omega, h.batch⟩
  have hslots := h.slots x
  have hcount := hchain.count_eq x
  rw [List.count_cons] at hcount ⊢
  omega

/-- **A reservation that is admitted finds a free node.** -/
theorem free_ne_nil (hpending : pendingCount < capacity) (hactive : activeCount ≤ capacity) : free ≠ [] := by
  rintro rfl
  have hperm : (held ++ ready ++ chain ++ active).Perm (List.range (2 * capacity)) := by
    rw [List.perm_iff_count]
    intro x
    have hslots := h.slots x
    rw [List.count_nil] at hslots
    rw [List.count_append, List.count_append, List.count_append]
    omega
  have hlength := hperm.length_eq
  rw [List.length_append, List.length_append, List.length_append, List.length_range] at hlength
  have := h.pending
  have := h.batch
  omega

end

end DispatchNodesAgree

namespace PostsAgree

variable {calls : Nat → PostCall} {holders : List (Nat × Nat)} {k slot : Nat} {call : PostCall}

section

variable (h : PostsAgree calls holders)
include h

/-- A post goes on with what it holds. -/
theorem same (hslot : call.slot = (calls k).slot) : PostsAgree (update calls k call) holders := by
  refine ⟨h.nodup, fun j slot' => ?_⟩
  by_cases hj : j = k
  · rw [hj, update_self, hslot]
    exact h.owners k slot'
  · rw [update_of_ne hj]
    exact h.owners j slot'

theorem take (hbefore : (calls k).slot = none) (hslot : call.slot = some slot) :
    PostsAgree (update calls k call) ((k, slot) :: holders) := by
  have hnot : ∀ slot', (k, slot') ∉ holders := by
    intro slot' hmem
    rw [h.owners, hbefore] at hmem
    cases hmem
  refine ⟨List.nodup_cons.mpr ⟨hnot slot, h.nodup⟩, fun j slot' => ?_⟩
  rw [List.mem_cons, Prod.mk.injEq]
  by_cases hj : j = k
  · subst hj
    rw [update_self, hslot, Option.some.injEq]
    constructor
    · rintro (heq | hmem)
      · exact heq.2.symm
      · exact absurd hmem (hnot slot')
    · exact fun heq => .inl ⟨rfl, heq.symm⟩
  · rw [update_of_ne hj, ← h.owners j slot']
    exact ⟨fun hmem => hmem.resolve_left fun heq => hj heq.1, .inr⟩

theorem give (hbefore : (calls k).slot = some slot) (hslot : call.slot = none) :
    PostsAgree (update calls k call) (holders.erase (k, slot)) := by
  refine ⟨h.nodup.erase _, fun j slot' => ?_⟩
  rw [h.nodup.mem_erase_iff]
  by_cases hj : j = k
  · subst hj
    rw [update_self, hslot, h.owners, hbefore]
    constructor
    · rintro ⟨hne, heq⟩
      cases heq
      exact absurd rfl hne
    · rintro ⟨⟩
  · rw [update_of_ne hj, ← h.owners j slot']
    exact ⟨fun hmem => hmem.2, fun hmem => ⟨fun heq => hj (Prod.mk.inj heq).1, hmem⟩⟩

theorem perm (hcall : (calls k).slot = some slot) :
    (holders.map Prod.snd).Perm (slot :: (holders.erase (k, slot)).map Prod.snd) :=
  (List.perm_cons_erase ((h.owners k slot).mpr hcall)).map Prod.snd

end

end PostsAgree

/-! ## Tasks -/

namespace TasksAgree

variable {calls : Nat → PostCall} {published ran remaining ready chain destroyed dropped : List Nat} {k : Nat}
  {call : PostCall}

section

variable (h : TasksAgree calls published ran remaining ready chain destroyed dropped)
include h

section

variable (hbefore : calls k ≠ .accepted)
include hbefore

/-- A post that is not accepted goes on. -/
theorem setCall (hafter : call ≠ .accepted) :
    TasksAgree (update calls k call) published ran remaining ready chain destroyed dropped := by
  refine ⟨h.order, h.places, fun j => ?_⟩
  rw [h.once j]
  by_cases hj : j = k
  · rw [hj, update_self, if_neg hbefore, if_neg hafter]
  · rw [update_of_ne hj]

theorem publish :
    TasksAgree (update calls k .accepted) (published ++ [k]) ran remaining (ready ++ [k]) chain destroyed
      dropped := by
  refine ⟨h.order.trans (List.prefix_append _ _), fun j => ?_, fun j => ?_⟩
  · have hplaces := h.places j
    rw [List.count_append, List.count_append]
    omega
  · have honce := h.once j
    rw [List.count_append, List.count_singleton]
    by_cases hj : j = k
    · rw [hj, if_neg hbefore] at honce
      rw [hj, update_self, if_pos rfl, if_pos (beq_self_eq_true k)]
      omega
    · rw [update_of_ne hj, if_neg (by simpa using Ne.symm hj)]
      omega

theorem drop :
    TasksAgree (update calls k .accepted) published ran remaining ready chain destroyed (dropped ++ [k]) := by
  refine ⟨h.order, h.places, fun j => ?_⟩
  have honce := h.once j
  rw [List.count_append, List.count_singleton]
  by_cases hj : j = k
  · rw [hj, if_neg hbefore] at honce
    rw [hj, update_self, if_pos rfl, if_pos (beq_self_eq_true k)]
    omega
  · rw [update_of_ne hj, if_neg (by simpa using Ne.symm hj)]
    omega

end

end

theorem splice (h : TasksAgree calls published ran [] ready chain destroyed dropped)
    (hwhole : published = ran ++ ready) :
    TasksAgree calls published ran ready [] chain destroyed dropped := by
  refine ⟨hwhole ▸ List.prefix_rfl, fun j => ?_, h.once⟩
  have hplaces := h.places j
  omega

theorem start {task : Nat}
    (h : TasksAgree calls published ran (task :: remaining) ready chain destroyed dropped) :
    TasksAgree calls published (ran ++ [task]) remaining ready chain destroyed dropped := by
  refine ⟨?_, fun j => ?_, h.once⟩
  · rw [List.append_assoc, List.singleton_append]
    exact h.order
  · have hplaces := h.places j
    rw [List.count_cons] at hplaces
    rw [List.count_append, List.count_singleton]
    omega

theorem fail (h : TasksAgree calls published ran remaining ready chain destroyed dropped) :
    TasksAgree calls published ran [] ready (chain ++ remaining) destroyed dropped := by
  refine ⟨?_, fun j => ?_, h.once⟩
  · rw [List.append_nil]
    exact (List.prefix_append _ _).trans h.order
  · have hplaces := h.places j
    rw [List.count_append, List.count_nil]
    omega

section

variable (h : TasksAgree calls published ran remaining ready chain destroyed dropped)
include h

theorem abandon : TasksAgree calls published ran remaining [] (chain ++ ready) destroyed dropped := by
  refine ⟨h.order, fun j => ?_, h.once⟩
  have hplaces := h.places j
  rw [List.count_append, List.count_nil]
  omega

theorem discard {task : Nat} {chain' : List Nat}
    (hchain : chain.Perm (task :: chain')) :
    TasksAgree calls published ran remaining ready chain' (destroyed ++ [task]) dropped := by
  refine ⟨h.order, fun j => ?_, h.once⟩
  have hplaces := h.places j
  have hcount := hchain.count_eq j
  rw [List.count_cons] at hcount
  rw [List.count_append, List.count_singleton]
  omega

end

end TasksAgree

namespace WorkerQueue

variable {s : WorkerQueue} {holders : List (Nat × Nat)} {k slot : Nat}

/-! ## Posting -/

section

variable (h : s.Agrees holders)
include h

/-- A post goes on with what it holds. -/
theorem Agrees.setCall {call : PostCall} (hslot : call.slot = (s.calls k).slot)
    (hbefore : s.calls k ≠ .accepted) (hafter : call ≠ .accepted)
    (hdropping : ∀ slot, call = .releasing slot true → s.abandonDrain = true) : (s.setCall k call).Agrees holders :=
  { h with
    posts := h.posts.same hslot
    tasks := h.tasks.setCall hbefore hafter
    dropping := fun j slot hj => by
      replace hj : update s.calls k call j = .releasing slot true := hj
      by_cases hjk : j = k
      · rw [hjk, update_self] at hj
        exact hdropping slot hj
      · rw [update_of_ne hjk] at hj
        exact h.dropping j slot hj }

theorem Agrees.reserve (hidle : s.calls k = .idle) : ∃ holders', (s.reserve k).Agrees holders' := by
  have hreject : ∀ status, (s.setCall k (.rejected status)).Agrees holders := fun status =>
    h.setCall (by rw [hidle]; rfl) (by rw [hidle]; rintro ⟨⟩) nofun (fun slot heq => by cases heq)
  unfold WorkerQueue.reserve
  split
  · exact ⟨holders, hreject _⟩
  · rename_i hopen
    have haccepting : s.accepting = true := by
      rw [not_or, Bool.not_eq_false, Bool.not_eq_false] at hopen
      exact hopen.2
    split
    · exact ⟨holders, hreject _⟩
    · rename_i hfull
      have hbound := h.bound (h.accepting haccepting)
      have hfree := h.nodes.free_ne_nil (by omega) h.active
      split
      · exact absurd ‹_› hfree
      · rename_i slot free heq
        have hbefore : s.calls k ≠ .accepted := by
          rw [hidle]
          rintro ⟨⟩
        have hafter : PostCall.reserved slot ≠ .accepted := by rintro ⟨⟩
        have hset := h.tasks.setCall hbefore hafter
        refine ⟨(k, slot) :: holders, ?_, h.posts.take (by rw [hidle]; rfl) rfl, hset, h.readyCount, h.active,
          h.accepting, h.attached, fun _ => ?_, h.scheduled, h.woken, h.abandoned, h.whole, fun j slot' hj => ?_,
          h.defined, h.called⟩
        · exact DispatchNodesAgree.reserve (heq ▸ h.nodes)
        · show s.pendingCount + 1 ≤ s.capacity
          omega
        · replace hj : update s.calls k (.reserved slot) j = .releasing slot' true := hj
          by_cases hjk : j = k
          · rw [hjk, update_self] at hj
            cases hj
          · rw [update_of_ne hjk] at hj
            exact h.dropping j slot' hj

theorem Agrees.publish (hcall : s.calls k = .reserved slot) (postThrows : Bool) :
    ∃ holders', (s.publish k slot postThrows).Agrees holders' := by
  have hbefore : s.calls k ≠ .accepted := by
    rw [hcall]
    rintro ⟨⟩
  have hslot : (s.calls k).slot = some slot := by
    rw [hcall]
    rfl
  unfold WorkerQueue.publish
  split
  · rename_i hopen
    split
    · exact ⟨holders, h.setCall (by rw [hslot]; rfl) hbefore nofun (fun slot heq => by cases heq)⟩
    · have hscheduled : s.scheduleDrain.drainScheduled = true := by
        unfold scheduleDrain
        split
        · assumption
        · rfl
      have hcount : s.scheduleDrain.posted + s.drain.isRunning.toNat = 1 := by
        have := h.scheduled hopen.1
        unfold scheduleDrain
        split
        · rename_i hset
          rw [hset] at this
          exact this
        · rename_i hunset
          rw [Bool.eq_false_iff.mpr hunset] at this
          show s.posted + 1 + s.drain.isRunning.toNat = 1
          have hzero : s.posted + s.drain.isRunning.toNat = 0 := this
          omega
      have hsame : s.scheduleDrain =
          { s with posted := s.scheduleDrain.posted, drainScheduled := s.scheduleDrain.drainScheduled } := by
        unfold scheduleDrain
        split <;> rfl
      generalize s.scheduleDrain.posted = posted at hcount hsame
      generalize s.scheduleDrain.drainScheduled = drainScheduled at hscheduled hsame
      subst hscheduled
      rw [hsame]
      obtain ⟨hchain, hdestroyed, hdropped, hpublished⟩ := h.whole hopen.1
      refine ⟨holders.erase (k, slot), ?_, h.posts.give hslot rfl, ?_, ?_, h.active, h.accepting, h.attached, h.bound,
        fun _ => hcount, fun _ _ => .inl rfl, fun habandon => ?_, fun _ => ⟨hchain, hdestroyed, hdropped, ?_⟩,
        fun j slot' hj => ?_, h.defined, h.called⟩
      · have := h.nodes.publish (h.posts.perm hslot)
        simpa [pushReady, WorkerQueue.setCall] using this
      · have := h.tasks.publish hbefore
        simpa [pushReady, WorkerQueue.setCall] using this
      · show s.readyCount + 1 = (s.ready ++ [_]).length
        rw [List.length_append, ← h.readyCount]
        rfl
      · rw [show s.abandonDrain = true from habandon] at hopen
        cases hopen.1
      · show s.published ++ [k] =
          s.ran ++ s.drain.remaining ++ List.map DispatchNode.task (s.ready ++ [(⟨slot, k⟩ : DispatchNode)])
        rw [hpublished, List.map_append, ← List.append_assoc]
        rfl
      · replace hj : update s.calls k .accepted j = .releasing slot' true := hj
        by_cases hjk : j = k
        · rw [hjk, update_self] at hj
          cases hj
        · rw [update_of_ne hjk] at hj
          exact h.dropping j slot' hj
  · rename_i hclosed
    refine ⟨holders, h.setCall (by rw [hslot]; rfl) hbefore nofun fun _ _ => ?_⟩
    by_contra hopen
    exact hclosed ⟨Bool.eq_false_iff.mpr hopen, h.attached (Bool.eq_false_iff.mpr hopen)⟩

theorem Agrees.release {accepted : Bool} (hcall : s.calls k = .releasing slot accepted) :
    (s.release k slot accepted).Agrees (holders.erase (k, slot)) := by
  have hbefore : s.calls k ≠ .accepted := by
    rw [hcall]
    rintro ⟨⟩
  have hslot : (s.calls k).slot = some slot := by
    rw [hcall]
    rfl
  have hnodes := h.nodes.release (h.posts.perm hslot)
  have hdropping : ∀ call : PostCall, (∀ slot' accepted', call ≠ .releasing slot' accepted') → ∀ j slot',
      update s.calls k call j = .releasing slot' true → s.abandonDrain = true := by
    intro call hne j slot' hj
    by_cases hjk : j = k
    · rw [hjk, update_self] at hj
      exact absurd hj (hne slot' true)
    · rw [update_of_ne hjk] at hj
      exact h.dropping j slot' hj
  cases accepted with
  | true =>
    have habandon := h.dropping k slot hcall
    exact { h with
      nodes := hnodes
      posts := h.posts.give hslot rfl
      tasks := h.tasks.drop hbefore
      bound := fun hopen => (Nat.sub_le _ _).trans (h.bound hopen)
      whole := fun hopen => by
        rw [show s.abandonDrain = false from hopen] at habandon
        cases habandon
      dropping := hdropping .accepted (fun _ _ => by rintro ⟨⟩) }
  | false =>
    exact { h with
      nodes := hnodes
      posts := h.posts.give hslot rfl
      tasks := h.tasks.setCall hbefore nofun
      bound := fun hopen => (Nat.sub_le _ _).trans (h.bound hopen)
      dropping := hdropping .threw (fun _ _ => by rintro ⟨⟩) }

end

/-! ## Draining -/

theorem Agrees.beginDrain (h : s.Agrees holders) (hposted : s.posted ≠ 0) (hidle : s.drain = .idle) :
    ({ s with posted := s.posted - 1 }.beginDrain).Agrees holders := by
  have hrunning : s.drain.isRunning.toNat = 0 := by
    rw [hidle]
    rfl
  unfold WorkerQueue.beginDrain
  split
  · rename_i habandon
    have hopen : s.abandonDrain ≠ false := by
      rw [habandon]
      rintro ⟨⟩
    exact { h with
      scheduled := fun heq => absurd heq hopen
      woken := fun heq => absurd heq hopen
      abandoned := fun _ _ => Nat.succ_ne_zero _
      called := fun _ => habandon }
  · rename_i hopen
    rw [Bool.not_eq_true] at hopen
    have hscheduled := h.scheduled hopen
    split
    · rename_i hcount
      have hempty : s.ready = [] := List.length_eq_zero_iff.mp (h.readyCount ▸ hcount)
      exact { h with
        scheduled := fun _ => by
          show s.posted - 1 + s.drain.isRunning.toNat = 0
          have := Bool.toNat_le s.drainScheduled
          omega
        woken := fun _ hne => absurd hempty hne }
    · have hnodes := h.nodes
      rw [hidle] at hnodes
      have hlength : s.readyCount = (s.ready.map DispatchNode.slot).length := by
        rw [List.length_map]
        exact h.readyCount
      have hwhole := h.whole hopen
      have hbound := h.bound hopen
      have htasks := h.tasks
      rw [hidle] at htasks hwhole
      refine ⟨?_, h.posts, ?_, rfl, ?_, h.accepting, h.attached, fun _ => ?_, fun _ => ?_, fun _ hne => absurd rfl hne,
        fun _ hne => absurd rfl hne, fun _ => ?_, h.dropping, h.defined, h.called⟩
      · have := hnodes.splice
        rw [← hlength] at this
        simpa [DrainPhase.nodes] using this
      · refine htasks.splice ?_
        rw [hwhole.2.2.2]
        simp [DrainPhase.remaining]
      · show s.activeCount + s.readyCount ≤ s.capacity
        have hbatch := hnodes.batch
        have hpending := hnodes.pending
        simp only [DrainPhase.nodes, List.map_nil, List.length_nil] at hbatch
        omega
      · exact (Nat.sub_le _ _).trans hbound
      · show s.posted - 1 + 1 = s.drainScheduled.toNat
        omega
      · refine ⟨hwhole.1, hwhole.2.1, hwhole.2.2.1, ?_⟩
        rw [hwhole.2.2.2]
        simp [DrainPhase.remaining]

variable {completed : List DispatchNode} {node : DispatchNode}

section

variable (h : s.Agrees holders)
include h

theorem Agrees.startTask {remaining : List DispatchNode}
    (hdrain : s.drain = .running completed none (node :: remaining)) :
    Agrees { s with drain := .running completed (some node) remaining, ran := s.ran ++ [node.task] } holders := by
  obtain ⟨hnodes, htasks, hscheduled, hwoken, hwhole⟩ := And.intro h.nodes (And.intro h.tasks (And.intro h.scheduled
    (And.intro h.woken h.whole)))
  rw [hdrain] at hnodes htasks hscheduled hwoken hwhole
  exact { h with
    nodes := by simpa [DrainPhase.nodes] using hnodes
    tasks := htasks.start
    scheduled := hscheduled
    woken := fun hopen hne => .inl ((hwoken hopen hne).resolve_right fun heq => (by cases heq.1))
    whole := fun hopen => by
      obtain ⟨hchain, hdestroyed, hdropped, hpublished⟩ := hwhole hopen
      refine ⟨hchain, hdestroyed, hdropped, ?_⟩
      rw [hpublished]
      simp [DrainPhase.remaining] }

theorem Agrees.finishTask {remaining : List DispatchNode}
    (hdrain : s.drain = .running completed (some node) remaining) :
    Agrees { s with drain := .running (completed ++ [node]) none remaining } holders := by
  obtain ⟨hnodes, htasks, hscheduled, hwoken, hwhole⟩ := And.intro h.nodes (And.intro h.tasks (And.intro h.scheduled
    (And.intro h.woken h.whole)))
  rw [hdrain] at hnodes htasks hscheduled hwoken hwhole
  exact { h with
    nodes := by simpa [DrainPhase.nodes] using hnodes
    tasks := htasks
    scheduled := hscheduled
    woken := fun hopen hne => .inl ((hwoken hopen hne).resolve_right fun heq => (by cases heq.1))
    whole := hwhole }

/-- **A task that throws** ends admission; what is left of its batch is released. -/
theorem Agrees.failBatch {remaining : List DispatchNode}
    (hdrain : s.drain = .running completed (some node) remaining) :
    (s.failBatch completed node remaining).Agrees holders := by
  obtain ⟨hnodes, htasks⟩ := And.intro h.nodes h.tasks
  rw [hdrain] at hnodes htasks
  have hfail := @DispatchNodesAgree.fail s.capacity s.pendingCount s.activeCount s.free (holders.map Prod.snd)
    (s.ready.map DispatchNode.slot) (s.chain.map DispatchNode.slot) ((completed ++ [node]).map DispatchNode.slot)
    (remaining.map DispatchNode.slot) (by simpa [DrainPhase.nodes] using hnodes)
  have htrue : ∀ {P : Prop}, true = false → P := nofun
  refine ⟨?_, h.posts, ?_, h.readyCount, ?_, nofun, htrue, htrue, htrue, htrue,
    fun _ _ => Nat.succ_ne_zero _, htrue, fun _ _ _ => rfl, h.defined, fun _ => rfl⟩
  · simpa [WorkerQueue.failBatch, beginStopping, DrainPhase.nodes] using hfail
  · simpa [WorkerQueue.failBatch, beginStopping, DrainPhase.remaining] using htasks.fail
  · exact (Nat.sub_le _ _).trans h.active

theorem Agrees.endBatch (hdrain : s.drain = .running completed none []) (postThrows : Bool) :
    (s.endBatch completed postThrows).Agrees holders := by
  obtain ⟨hnodes, htasks, hscheduled, hwhole⟩ := And.intro h.nodes (And.intro h.tasks (And.intro h.scheduled h.whole))
  rw [hdrain] at hnodes htasks hscheduled hwhole
  have hend := @DispatchNodesAgree.fail s.capacity s.pendingCount s.activeCount s.free (holders.map Prod.snd)
    (s.ready.map DispatchNode.slot) (s.chain.map DispatchNode.slot) (completed.map DispatchNode.slot) []
    (by simpa [DrainPhase.nodes] using hnodes)
  have hfree : DispatchNodesAgree s.capacity (completed.map DispatchNode.slot ++ s.free) (holders.map Prod.snd)
      (s.ready.map DispatchNode.slot) (s.chain.map DispatchNode.slot) [] s.pendingCount
      (s.activeCount - completed.length) := by simpa using hend
  have hactive : s.activeCount - completed.length ≤ s.capacity := (Nat.sub_le _ _).trans h.active
  unfold WorkerQueue.endBatch
  dsimp only
  split
  · rename_i habandon
    have hopen : ∀ {P : Prop}, s.abandonDrain = false → P := fun heq => by
      rw [habandon] at heq
      cases heq
    exact ⟨hfree, h.posts, htasks, h.readyCount, hactive, h.accepting, hopen, hopen, hopen, hopen,
      fun _ _ => Nat.succ_ne_zero _, hopen, h.dropping, h.defined, fun _ => habandon⟩
  · rename_i hopen
    rw [Bool.not_eq_true] at hopen
    have hone : s.posted + 1 = s.drainScheduled.toNat := hscheduled hopen
    have hzero : s.posted = 0 := by
      have := Bool.toNat_le s.drainScheduled
      omega
    have habandoned : ∀ {P : Prop}, s.abandonDrain = true → P := fun heq => by
      rw [hopen] at heq
      cases heq
    split
    · split
      · exact ⟨hfree, h.posts, htasks, h.readyCount, hactive, h.accepting, h.attached, h.bound, fun _ => hzero,
          fun _ _ => .inr ⟨rfl, rfl⟩, habandoned, hwhole, h.dropping, h.defined, h.called⟩
      · exact ⟨hfree, h.posts, htasks, h.readyCount, hactive, h.accepting, h.attached, h.bound,
          fun _ => congrArg (· + 1) hzero, fun _ _ => .inl rfl, habandoned, hwhole, h.dropping, h.defined, h.called⟩
    · rename_i hcount
      rw [not_not] at hcount
      have hempty : s.ready = [] := List.length_eq_zero_iff.mp (h.readyCount ▸ hcount)
      exact ⟨hfree, h.posts, htasks, h.readyCount, hactive, h.accepting, h.attached, h.bound, fun _ => hzero,
        fun _ hne => absurd hempty hne, habandoned, hwhole, h.dropping, h.defined, h.called⟩

/-! ## Stopping -/

theorem Agrees.handleFailure (hdrain : s.drain = .idle ∨ s.drain = .escaping) : s.handleFailure.Agrees holders := by
  have htrue : ∀ {P : Prop}, true = false → P := nofun
  have hnone : s.drain.nodes = [] ∧ s.drain.remaining = [] := by
    rcases hdrain with hdrain | hdrain <;> rw [hdrain] <;> exact ⟨rfl, rfl⟩
  obtain ⟨hnodes, htasks⟩ := And.intro h.nodes h.tasks
  rw [hnone.1] at hnodes
  rw [hnone.2] at htasks
  exact ⟨hnodes, h.posts, htasks, h.readyCount, h.active, nofun, htrue, htrue, htrue, htrue,
    fun _ _ => Nat.succ_ne_zero _, htrue, fun _ _ _ => rfl, h.defined, fun _ => rfl⟩

theorem Agrees.close : (s.beginStopping false).Agrees holders :=
  { h with accepting := fun heq => by cases heq }

theorem Agrees.detach : s.detach.Agrees holders := by
  have htrue : ∀ {P : Prop}, true = false → P := nofun
  unfold WorkerQueue.detach
  split
  · exact h
  · exact ⟨h.nodes, h.posts, h.tasks, h.readyCount, h.active, nofun, htrue, htrue, htrue, htrue,
      fun _ _ => Nat.succ_ne_zero _, htrue, fun _ _ _ => rfl, h.defined, fun _ => rfl⟩

theorem Agrees.abandonQueued (hcalled : s.abandons ≠ 0) : s.abandonQueued.Agrees holders := by
  have habandon := h.called hcalled
  have hopen : ∀ {P : Prop}, s.abandonDrain = false → P := fun heq => by
    rw [habandon] at heq
    cases heq
  refine ⟨?_, h.posts, ?_, rfl, h.active, h.accepting, hopen, hopen, hopen, hopen, fun _ hne => absurd rfl hne, hopen,
    h.dropping, h.defined, fun _ => habandon⟩
  · simpa [WorkerQueue.abandonQueued] using h.nodes.abandon
  · simpa [WorkerQueue.abandonQueued] using h.tasks.abandon

theorem Agrees.releaseAbandoned (hmem : node ∈ s.chain) :
    Agrees { s.releaseNode node.slot with chain := s.chain.erase node, destroyed := s.destroyed ++ [node.task] }
      holders := by
  have hperm := List.perm_cons_erase hmem
  have hopen : ∀ {P : Prop}, s.abandonDrain = false → P := fun heq => by
    rw [(h.whole heq).1] at hmem
    cases hmem
  exact { h with
    nodes := h.nodes.discard (hperm.map DispatchNode.slot)
    tasks := h.tasks.discard (hperm.map DispatchNode.task)
    bound := hopen
    whole := hopen }

/-! ## Runs -/

/-- **Every section keeps the invariant.** -/
theorem Agrees.step {action : WorkerQueueAction} {t : WorkerQueue} (hstep : s.step action = some t) :
    ∃ holders', t.Agrees holders' := by
  unfold WorkerQueue.step at hstep
  split at hstep
  · split at hstep <;> cases hstep
    exact h.reserve ‹_›
  · split at hstep <;> cases hstep
    rename_i hcall
    exact ⟨holders, h.setCall (by rw [hcall]; rfl) (by rw [hcall]; rintro ⟨⟩) nofun
      (fun slot heq => by cases heq)⟩
  · split at hstep <;> cases hstep
    exact h.publish ‹_› _
  · split at hstep <;> cases hstep
    exact ⟨_, h.release ‹_›⟩
  · split at hstep <;> cases hstep
    rename_i hready
    exact ⟨holders, h.beginDrain hready.1 hready.2⟩
  · split at hstep <;> cases hstep
    exact ⟨holders, h.startTask ‹_›⟩
  · split at hstep <;> cases hstep
    exact ⟨holders, h.finishTask ‹_›⟩
  · split at hstep <;> cases hstep
    exact ⟨holders, h.failBatch ‹_›⟩
  · split at hstep <;> cases hstep
    exact ⟨holders, h.endBatch ‹_› _⟩
  · split at hstep <;> cases hstep
    exact ⟨holders, h.handleFailure ‹_›⟩
  · cases hstep
    exact ⟨holders, h.close⟩
  · cases hstep
    exact ⟨holders, h.detach⟩
  · split at hstep <;> cases hstep
    exact ⟨holders, h.abandonQueued ‹_›⟩
  · split at hstep <;> cases hstep
    exact ⟨holders, h.releaseAbandoned ‹_›⟩

end

theorem init_agrees (capacity : Nat) : (init capacity).Agrees [] where
  nodes := ⟨fun x => by simp [init, DrainPhase.nodes], rfl, rfl⟩
  posts := ⟨List.nodup_nil, fun _ _ => ⟨nofun, nofun⟩⟩
  tasks := ⟨List.prefix_rfl, fun _ => rfl, fun _ => rfl⟩
  readyCount := rfl
  active := Nat.zero_le _
  accepting _ := rfl
  attached _ := rfl
  bound _ := Nat.zero_le _
  scheduled _ := rfl
  woken _ hne := absurd rfl hne
  abandoned h := by cases h
  whole _ := ⟨rfl, rfl, rfl, rfl⟩
  dropping _ _ h := by cases h
  defined := rfl
  called h := absurd rfl h

@[simp] theorem reserve_capacity (k : Nat) : (s.reserve k).capacity = s.capacity := by
  unfold WorkerQueue.reserve
  split
  · rfl
  · split
    · rfl
    · split <;> rfl

@[simp] theorem scheduleDrain_capacity : s.scheduleDrain.capacity = s.capacity := by
  unfold scheduleDrain
  split <;> rfl

@[simp] theorem publish_capacity (k slot : Nat) (postThrows : Bool) :
    (s.publish k slot postThrows).capacity = s.capacity := by
  unfold WorkerQueue.publish
  split
  · split
    · rfl
    · exact scheduleDrain_capacity
  · rfl

@[simp] theorem release_capacity (k slot : Nat) (accepted : Bool) :
    (s.release k slot accepted).capacity = s.capacity := by
  cases accepted <;> rfl

@[simp] theorem beginDrain_capacity : s.beginDrain.capacity = s.capacity := by
  unfold WorkerQueue.beginDrain
  split
  · rfl
  · split <;> rfl

@[simp] theorem endBatch_capacity (completed : List DispatchNode) (postThrows : Bool) :
    (s.endBatch completed postThrows).capacity = s.capacity := by
  unfold WorkerQueue.endBatch
  dsimp only
  split
  · rfl
  · split
    · split
      · rfl
      · exact scheduleDrain_capacity
    · rfl

@[simp] theorem detach_capacity : s.detach.capacity = s.capacity := by
  unfold WorkerQueue.detach
  split <;> rfl

theorem capacity_step {action : WorkerQueueAction} {t : WorkerQueue} (hstep : s.step action = some t) :
    t.capacity = s.capacity := by
  unfold WorkerQueue.step at hstep
  split at hstep
  case h_11 | h_12 =>
    cases hstep
    first
      | rfl
      | exact detach_capacity
  all_goals split at hstep <;> cases hstep
  all_goals first
    | rfl
    | simp

theorem agrees_of_reachable {capacity : Nat} (h : (workerQueueMachine capacity).Reachable s) :
    (∃ holders, s.Agrees holders) ∧ s.capacity = capacity := by
  refine StateMachine.Reachable.invariant (P := fun s => (∃ holders, s.Agrees holders) ∧ s.capacity = capacity) ?_ ?_ h
  · rintro s rfl
    exact ⟨⟨[], init_agrees capacity⟩, rfl⟩
  · rintro s action t ⟨⟨holders, hagrees⟩, hcapacity⟩ hstep
    exact ⟨hagrees.step hstep, (capacity_step hstep).trans hcapacity⟩

/-! ## Every task once, and no lost wakeup -/

/-- Where an accepted task can be. -/
def Places (s : WorkerQueue) : List (List Nat) :=
  [s.ran, s.drain.remaining, s.ready.map DispatchNode.task, s.chain.map DispatchNode.task, s.destroyed, s.dropped]

theorem Agrees.nodes_perm (h : s.Agrees holders) :
    (s.free ++ holders.map Prod.snd ++ s.ready.map DispatchNode.slot ++ s.chain.map DispatchNode.slot ++
      s.drain.nodes.map DispatchNode.slot).Perm (List.range (2 * s.capacity)) := by
  rw [List.perm_iff_count]
  intro x
  rw [List.count_append, List.count_append, List.count_append, List.count_append]
  exact h.nodes.slots x

theorem Agrees.task_once (h : s.Agrees holders) (k : Nat) :
    (s.Places.flatten).count k = if s.calls k = .accepted then 1 else 0 := by
  rw [← h.tasks.once k, h.tasks.places k]
  simp only [Places, List.flatten_cons, List.flatten_nil, List.append_nil, List.count_append]
  omega

/-- **The task queue of a worker.** After any sections of any posts, drains, tasks and shutdowns: the free, held, ready,
abandoned and active nodes are the `2 * capacity` nodes, each once, at most `capacity` of them pending while the worker
accepts, so that an admitted reservation finds a free one; the tasks run in the order of publication, each accepted task
is in exactly one place, and unless the drain was abandoned or the context detached that is none but the executed, the
batch and the ready ones; and while the worker accepts, a ready task has its drain: one is queued on the context or
runs its batch, or it threw because `asio::post` did, and handling its failure ends acceptance. -/
theorem worker_queue (capacity : Nat) (actions : List WorkerQueueAction) :
    let s := (workerQueueMachine capacity).run (init capacity) actions
    (∃ held : List Nat,
      (s.free ++ held ++ s.ready.map DispatchNode.slot ++ s.chain.map DispatchNode.slot ++
          s.drain.nodes.map DispatchNode.slot).Perm (List.range (2 * capacity)) ∧
        (∀ slot, slot ∈ held ↔ ∃ k, (s.calls k).slot = some slot) ∧
        s.pendingCount = held.length + s.ready.length + s.chain.length ∧
        s.activeCount = s.drain.nodes.length) ∧
      (s.accepting = true → s.pendingCount ≤ capacity) ∧
      (s.accepting = true → s.pendingCount ≠ capacity → s.free ≠ []) ∧ s.undefined = false ∧
      s.ran ++ s.drain.remaining <+: s.published ∧
      (∀ k, (s.Places.flatten).count k = if s.calls k = .accepted then 1 else 0) ∧
      (s.abandonDrain = false → s.published = s.ran ++ s.drain.remaining ++ s.ready.map DispatchNode.task ∧
        s.chain = [] ∧ s.destroyed = [] ∧ s.dropped = []) ∧
      (s.accepting = true ∨ s.abandonDrain = false → s.ready ≠ [] →
        s.drainScheduled = true ∧ s.posted + s.drain.isRunning.toNat = 1 ∨
          s.drain = .escaping ∧ s.postFailed = true) ∧
      (s.abandonDrain = true → s.ready ≠ [] → s.abandons ≠ 0) ∧
      (s.handleFailure.accepting = false ∧ s.handleFailure.abandonDrain = true) := by
  intro s
  have hreachable : (workerQueueMachine capacity).Reachable s := (StateMachine.Reachable.start rfl).run actions
  obtain ⟨⟨holders, h⟩, hcapacity⟩ := agrees_of_reachable hreachable
  have hbound := h.bound
  have hactive := h.active
  rw [hcapacity] at hbound hactive
  refine ⟨⟨holders.map Prod.snd, hcapacity ▸ h.nodes_perm, fun slot => ?_, ?_, ?_⟩,
    fun haccepting => hbound (h.accepting haccepting), fun haccepting hroom => ?_, h.defined, h.tasks.order,
    h.task_once, fun hopen => ?_, fun hopen hne => ?_, h.abandoned, rfl, rfl⟩
  · rw [List.mem_map]
    constructor
    · rintro ⟨⟨k, slot'⟩, hmem, rfl⟩
      exact ⟨k, (h.posts.owners k slot').mp hmem⟩
    · rintro ⟨k, hk⟩
      exact ⟨(k, slot), (h.posts.owners k slot).mpr hk, rfl⟩
  · simpa only [List.length_map] using h.nodes.pending
  · simpa only [List.length_map] using h.nodes.batch
  · have hle := hbound (h.accepting haccepting)
    exact h.nodes.free_ne_nil (by omega) h.active
  · obtain ⟨hchain, hdestroyed, hdropped, hpublished⟩ := h.whole hopen
    exact ⟨hpublished, hchain, hdestroyed, hdropped⟩
  · have hopen : s.abandonDrain = false := hopen.elim h.accepting id
    refine (h.woken hopen hne).imp_left fun hset => ⟨hset, ?_⟩
    rw [h.scheduled hopen, hset]
    rfl

end WorkerQueue

end Ruvia.Core
