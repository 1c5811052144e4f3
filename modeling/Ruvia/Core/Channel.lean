import Ruvia.Core.WorkerWait
import Ruvia.Library.StateMachine
import Mathlib.Data.List.Perm.Basic
import Mathlib.Data.List.Nodup
import Mathlib.Data.List.Range

/-!
# `Core.Channel` — a bounded channel into one worker

`channel_state`, `channel_sender::send`, `channel_receive_awaiter` and the two `close`s. Every section under the
mutex is one action. What a call does outside of it concerns only a node it owns alone: moving a value into a
reserved node is an action of its own, and moving one out of a node or destroying it is part of the section that
recycles the node. Sends, receives and closes are numbered.

A node travels with the value in it (`ChannelNode`); the intrusive lists are lists.
-/

namespace Ruvia.Core

open Library Function
open WorkerWaits

inductive ChannelSendStatus where
  | full
  | closed
  | workerStopping
  deriving DecidableEq, Repr

inductive ChannelLifecycle where
  | open
  | closed
  | workerStopping
  deriving DecidableEq, Repr

/-- A slot of the channel with the value in it. -/
structure ChannelNode (τ : Type) where
  slot : Nat
  value : τ

/-- One call of `send`, by the section it has come to. -/
inductive SendCall (τ : Type) where
  | idle
  /-- Holds its value, in front of the first section. -/
  | called (value : τ)
  /-- Reserved a slot; the value is still to be moved. -/
  | reserved (value : τ) (slot : Nat)
  /-- Moving the value threw; the reservation is still to be undone. -/
  | unreserving (value : τ) (slot : Nat)
  /-- The value is in its node; in front of the second section. -/
  | stored (node : ChannelNode τ)
  /-- Refused by the second section; the node is still to be emptied and recycled. -/
  | rejecting (status : ChannelSendStatus) (node : ChannelNode τ)
  | sent
  | rejected (status : ChannelSendStatus) (value : τ)
  | threw (value : τ)

/-- One call of `close`; a retiring one destroys what is buffered, one value after the other. -/
inductive ChannelCloseCall where
  | idle
  | draining
  /-- Destroyed a value; its slot is still to be recycled. -/
  | recycling (slot : Nat)
  | returned
  deriving DecidableEq, Repr

/-- `channel_state` with everything its endpoints are doing. `submitted`, `accepted`, `received`, `delivered` and
`destroyed` record what went in, in publication order; which receive each value was assigned to, in order; what the
receives returned; and what retiring closes destroyed. -/
structure Channel (τ : Type) where
  capacity : Nat
  free : List Nat
  queue : List (ChannelNode τ) := []
  queued : Nat := 0
  reserved : Nat := 0
  lifecycle : ChannelLifecycle := .open
  receiverClosed : Bool := false
  waits : WorkerWaits (ChannelNode τ) := {}
  calls : Nat → SendCall τ := fun _ => .idle
  closes : Nat → ChannelCloseCall := fun _ => .idle
  submitted : Nat → Option τ := fun _ => none
  accepted : List τ := []
  received : List (Nat × τ) := []
  delivered : Nat → Option τ := fun _ => none
  destroyed : List τ := []

inductive ChannelAction (τ : Type) where
  | send (k : Nat) (value : τ)
  | reserve (k : Nat) (accepting : Bool)
  | emplace (k : Nat) (throws : Bool)
  | unreserve (k : Nat)
  | publish (k : Nat) (accepting : Bool)
  | takeBack (k : Nat)
  | awaitReady (w : Nat) (stopRequested expired stoppable : Bool)
  | awaitSuspend (w : Nat) (timed : Bool) (schedule : TimerSchedule)
  | timerCompleted (w : Nat) (expired : Bool)
  | requestCancellation (w : Nat)
  | awaitResume (w : Nat)
  | close (c : Nat) (retireReceiver : Bool)
  | drain (c : Nat)
  | recycle (c : Nat)
  | workerStopping

namespace Channel

variable {τ : Type}

/-- The constructor pushes the slots one after the other: the last one is the first free one. -/
def init (capacity : Nat) : Channel τ := { capacity, free := (List.range (capacity + 1)).reverse }

variable (s : Channel τ)

def setCall (k : Nat) (call : SendCall τ) : Channel τ := { s with calls := update s.calls k call }

/-- `reserve_node`. -/
def reserveNode : Option (Channel τ × Nat) :=
  if s.queued + s.reserved = s.capacity then none
  else
    match s.free with
    | [] => none
    | slot :: free => some ({ s with free, reserved := s.reserved + 1 }, slot)

def enqueue (node : ChannelNode τ) : Channel τ := { s with queue := s.queue ++ [node], queued := s.queued + 1 }

def dequeue : Option (Channel τ × ChannelNode τ) :=
  match s.queue with
  | [] => none
  | node :: queue => some ({ s with queue, queued := s.queued - 1 }, node)

/-- `recycle`. -/
def recycleSlot (slot : Nat) : Channel τ := { s with free := slot :: s.free }

/-- The first section of `send`. -/
def reserve (k : Nat) (value : τ) (accepting : Bool) : Channel τ :=
  if s.lifecycle = .closed then s.setCall k (.rejected .closed value)
  else if s.lifecycle = .workerStopping ∨ accepting = false then s.setCall k (.rejected .workerStopping value)
  else
    match s.reserveNode with
    | none => s.setCall k (.rejected .full value)
    | some (s, slot) => s.setCall k (.reserved value slot)

/-- The section of the handler of `send`. -/
def unreserve (k : Nat) (value : τ) (slot : Nat) : Channel τ :=
  ({ s with reserved := s.reserved - 1 }.recycleSlot slot).setCall k (.threw value)

/-- The second section of `send`: a waiting receive gets the node at once. -/
def publish (k : Nat) (node : ChannelNode τ) (accepting : Bool) : Channel τ :=
  let s := { s with reserved := s.reserved - 1 }
  if s.lifecycle = .closed then s.setCall k (.rejecting .closed node)
  else if s.lifecycle = .workerStopping ∨ accepting = false then s.setCall k (.rejecting .workerStopping node)
  else
    let s := { s.setCall k .sent with accepted := s.accepted ++ [node.value] }
    match s.waits.waiter with
    | some w =>
      { s with
        waits := s.waits.complete (.value node)
        received := s.received ++ [(w, node.value)] }
    | none => s.enqueue node

/-- The section of `await_ready`. -/
def awaitReady (w : Nat) (stopRequested expired stoppable : Bool) : Channel τ :=
  if s.receiverClosed then
    { s with
      waits := s.waits.completeReady w
        (.outcome (if s.lifecycle = .workerStopping then .workerStopping else .closed)) }
  else
    match s.dequeue with
    | some (s, node) =>
      { s with
        waits := s.waits.completeReady w (.value node)
        received := s.received ++ [(w, node.value)] }
    | none =>
      match s.lifecycle with
      | .workerStopping => { s with waits := s.waits.completeReady w (.outcome .workerStopping) }
      | .closed => { s with waits := s.waits.completeReady w (.outcome .closed) }
      | .open => { s with waits := s.waits.completeOrPublish w stopRequested expired stoppable }

/-- `await_resume`; the node of a value is recycled behind it. -/
def awaitResume (w : Nat) : Option (Channel τ) :=
  match s.waits.awaitResume w with
  | none => none
  | some (waits, .outcome _) => some { s with waits }
  | some (waits, .value node) =>
    some ({ s with
      waits
      delivered := update s.delivered w (some node.value) }.recycleSlot node.slot)

/-- The section of `close`. -/
def close (c : Nat) (retireReceiver : Bool) : Channel τ :=
  let s :=
    { s with
      receiverClosed := s.receiverClosed || retireReceiver
      closes := update s.closes c (if retireReceiver then .draining else .returned) }
  if s.lifecycle = .open then { s with lifecycle := .closed, waits := s.waits.complete (.outcome .closed) } else s

/-- One round of `discard_buffered`. -/
def drain (c : Nat) : Channel τ :=
  match s.dequeue with
  | none => { s with closes := update s.closes c .returned }
  | some (s, node) =>
    { s with
      closes := update s.closes c (.recycling node.slot)
      destroyed := s.destroyed ++ [node.value] }

/-- `worker_stopping`. -/
def workerStopping : Channel τ :=
  { s with lifecycle := .workerStopping, waits := s.waits.complete (.outcome .workerStopping) }

/-- One action; a call goes through its sections in their order. -/
def step : ChannelAction τ → Option (Channel τ)
  | .send k value =>
    match s.calls k with
    | .idle => some { s.setCall k (.called value) with submitted := update s.submitted k (some value) }
    | _ => none
  | .reserve k accepting =>
    match s.calls k with
    | .called value => some (s.reserve k value accepting)
    | _ => none
  | .emplace k throws =>
    match s.calls k with
    | .reserved value slot => some (s.setCall k (if throws then .unreserving value slot else .stored ⟨slot, value⟩))
    | _ => none
  | .unreserve k =>
    match s.calls k with
    | .unreserving value slot => some (s.unreserve k value slot)
    | _ => none
  | .publish k accepting =>
    match s.calls k with
    | .stored node => some (s.publish k node accepting)
    | _ => none
  | .takeBack k =>
    match s.calls k with
    | .rejecting status node => some ((s.recycleSlot node.slot).setCall k (.rejected status node.value))
    | _ => none
  | .awaitReady w stopRequested expired stoppable =>
    if (s.waits.awaiters w).progress = .cold then some (s.awaitReady w stopRequested expired stoppable) else none
  | .awaitSuspend w timed schedule =>
    if (s.waits.awaiters w).progress = .published then some { s with waits := s.waits.suspend w timed schedule }
    else none
  | .timerCompleted w expired => (s.waits.timerFires w expired).map fun waits => { s with waits }
  | .requestCancellation w => (s.waits.stopFires w).map fun waits => { s with waits }
  | .awaitResume w => s.awaitResume w
  | .close c retireReceiver => if s.closes c = .idle then some (s.close c retireReceiver) else none
  | .drain c => if s.closes c = .draining then some (s.drain c) else none
  | .recycle c =>
    match s.closes c with
    | .recycling slot => some { s.recycleSlot slot with closes := update s.closes c .draining }
    | _ => none
  | .workerStopping => some s.workerStopping

end Channel

/-- The runs of one channel. -/
def channelMachine (τ : Type) (capacity : Nat) : StateMachine (Channel τ) (ChannelAction τ) where
  init s := s = Channel.init capacity
  step := Channel.step

/-! ## What every state keeps -/

/-- Who owns a node that is neither free nor queued. -/
inductive NodeHolder where
  | reservation (k : Nat)
  | refusal (k : Nat)
  | receive (w : Nat)
  | close (c : Nat)
  deriving DecidableEq

def NodeHolder.isReservation : NodeHolder → Bool
  | .reservation _ => true
  | .refusal _ | .receive _ | .close _ => false

namespace SendCall

variable {τ : Type}

/-- The slot a call has reserved. -/
def reservation : SendCall τ → Option Nat
  | .reserved _ slot | .unreserving _ slot => some slot
  | .stored node => some node.slot
  | .idle | .called _ | .rejecting _ _ | .sent | .rejected _ _ | .threw _ => none

/-- The slot of a refused value. -/
def refusal : SendCall τ → Option Nat
  | .rejecting _ node => some node.slot
  | .idle | .called _ | .reserved _ _ | .unreserving _ _ | .stored _ | .sent | .rejected _ _ | .threw _ => none

/-- The value of a call that was not sent. -/
def held : SendCall τ → Option τ
  | .called value | .reserved value _ | .unreserving value _ | .rejected _ value | .threw value => some value
  | .stored node | .rejecting _ node => some node.value
  | .idle | .sent => none

end SendCall

/-- A holder owns a slot. -/
def NodeHolder.Owns {τ : Type} (calls : Nat → SendCall τ) (waits : WorkerWaits (ChannelNode τ))
    (closes : Nat → ChannelCloseCall) : NodeHolder → Nat → Prop
  | .reservation k, slot => (calls k).reservation = some slot
  | .refusal k, slot => (calls k).refusal = some slot
  | .receive w, slot => (∃ v, waits.result w = some (.value ⟨slot, v⟩)) ∧ (waits.awaiters w).progress ≠ .resumed
  | .close c, slot => closes c = .recycling slot

/-- The free, queued and held slots are the slots of the channel. -/
structure NodesAgree (capacity : Nat) (free queue : List Nat) (holders : List (NodeHolder × Nat))
    (queued reserved : Nat) : Prop where
  slots : (free ++ queue ++ holders.map Prod.snd).Perm (List.range (capacity + 1))
  queuedCount : queued = queue.length
  reservedCount : reserved = holders.countP fun entry => entry.1.isReservation
  bound : queued + reserved ≤ capacity

/-- The receives agree with the record of what was assigned to them and what they returned. -/
structure ReceivesAgree {τ : Type} (waits : WorkerWaits (ChannelNode τ)) (received : List (Nat × τ))
    (delivered : Nat → Option τ) : Prop where
  holds : waits.Holds
  assigned : ∀ w v, (w, v) ∈ received ↔ ∃ slot, waits.result w = some (.value ⟨slot, v⟩)
  once : (received.map Prod.fst).Nodup
  returned : ∀ w v, delivered w = some v ↔
    (∃ slot, waits.result w = some (.value ⟨slot, v⟩)) ∧ (waits.awaiters w).progress = .resumed

/-- A call that was not sent holds the value it was given. -/
structure SendsAgree {τ : Type} (calls : Nat → SendCall τ) (submitted : Nat → Option τ) : Prop where
  held : ∀ k v, (calls k).held = some v → submitted k = some v
  idle : ∀ k, calls k = .idle → submitted k = none

namespace Channel

variable {τ : Type} {s : Channel τ} {holders : List (NodeHolder × Nat)}

/-- **The invariant of the channel**, with its slots that are neither free nor queued. -/
structure Agrees (s : Channel τ) (holders : List (NodeHolder × Nat)) : Prop where
  nodes : NodesAgree s.capacity s.free (s.queue.map ChannelNode.slot) holders s.queued s.reserved
  owners : ∀ h slot, (h, slot) ∈ holders ↔ h.Owns s.calls s.waits s.closes slot
  sends : SendsAgree s.calls s.submitted
  receives : ReceivesAgree s.waits s.received s.delivered
  waiter : ∀ w, s.waits.waiter = some w → s.queue = [] ∧ s.lifecycle = .open
  retired : s.receiverClosed = true → s.lifecycle ≠ .open
  retiring : ∀ c, s.closes c = .draining ∨ (∃ slot, s.closes c = .recycling slot) → s.receiverClosed = true
  destroyed : s.destroyed ≠ [] → s.receiverClosed = true
  accepted : s.accepted = s.received.map Prod.snd ++ s.destroyed ++ s.queue.map ChannelNode.value

end Channel

/-! ## Slots -/

namespace NodesAgree

variable {capacity : Nat} {free queue : List Nat} {holders : List (NodeHolder × Nat)} {queued reserved slot : Nat}
  {h h' : NodeHolder}

section

variable (hn : NodesAgree capacity free queue holders queued reserved)
include hn

theorem nodup : holders.Nodup := by
  have := hn.slots.nodup_iff.mpr List.nodup_range
  exact (List.nodup_append.mp this).2.1.of_map _

theorem mem_erase (entry : NodeHolder × Nat) :
    entry ∈ holders.erase (h, slot) ↔ entry ≠ (h, slot) ∧ entry ∈ holders := hn.nodup.mem_erase_iff

end

theorem map_erase (hmem : (h, slot) ∈ holders) :
    (holders.map Prod.snd).Perm (slot :: (holders.erase (h, slot)).map Prod.snd) :=
  (List.perm_cons_erase hmem).map Prod.snd

theorem countP_erase (hmem : (h, slot) ∈ holders) :
    holders.countP (fun entry => entry.1.isReservation) =
      (holders.erase (h, slot)).countP (fun entry => entry.1.isReservation) + if h.isReservation then 1 else 0 := by
  rw [(List.perm_cons_erase hmem).countP_eq, List.countP_cons]

/-- A free slot is reserved. -/
theorem reserve (hn : NodesAgree capacity (slot :: free) queue holders queued reserved)
    (hroom : queued + reserved ≠ capacity) (k : Nat) :
    NodesAgree capacity free queue ((.reservation k, slot) :: holders) queued (reserved + 1) := by
  have hbound := hn.bound
  refine ⟨?_, hn.queuedCount, ?_, by omega⟩
  · refine List.Perm.trans ?_ hn.slots
    exact List.perm_middle
  · rw [List.countP_cons, ← hn.reservedCount]
    rfl

section

variable (hn : NodesAgree capacity free queue holders queued reserved)
include hn

/-- A held slot is recycled. -/
theorem recycle (hmem : (h, slot) ∈ holders) :
    NodesAgree capacity (slot :: free) queue (holders.erase (h, slot)) queued
      (reserved - if h.isReservation then 1 else 0) := by
  have hcount := countP_erase hmem
  have hbound := hn.bound
  have hreserved := hn.reservedCount
  refine ⟨?_, hn.queuedCount, by omega, by omega⟩
  refine List.Perm.trans ?_ hn.slots
  exact List.perm_middle.symm.trans ((map_erase hmem).symm.append_left (free ++ queue))

/-- A reserved slot is queued. -/
theorem enqueue (hmem : (h, slot) ∈ holders)
    (hreservation : h.isReservation = true) :
    NodesAgree capacity free (queue ++ [slot]) (holders.erase (h, slot)) (queued + 1) (reserved - 1) := by
  have hcount := countP_erase hmem
  have hbound := hn.bound
  have hreserved := hn.reservedCount
  rw [if_pos hreservation] at hcount
  refine ⟨?_, ?_, by omega, by omega⟩
  · refine List.Perm.trans ?_ hn.slots
    rw [← List.append_assoc, List.append_assoc _ [slot]]
    exact (map_erase hmem).symm.append_left (free ++ queue)
  · rw [List.length_append, ← hn.queuedCount]
    rfl

end

/-- The front of the queue is handed out. -/
theorem dequeue (hn : NodesAgree capacity free (slot :: queue) holders queued reserved)
    (hreservation : h.isReservation = false) :
    NodesAgree capacity free queue ((h, slot) :: holders) (queued - 1) reserved := by
  have hbound := hn.bound
  have hqueued := hn.queuedCount
  rw [List.length_cons] at hqueued
  refine ⟨?_, by omega, ?_, by omega⟩
  · refine List.Perm.trans ?_ hn.slots
    rw [List.map_cons, List.append_assoc, List.append_assoc, List.cons_append]
    exact List.perm_middle.append_left free
  · rw [List.countP_cons, hreservation, ← hn.reservedCount]
    rfl

/-- A held slot changes its holder; a reservation ends thereby. -/
theorem handOver (hn : NodesAgree capacity free queue holders queued reserved) (hmem : (h, slot) ∈ holders)
    (hreservation : h.isReservation = true) (hother : h'.isReservation = false) :
    NodesAgree capacity free queue ((h', slot) :: holders.erase (h, slot)) queued (reserved - 1) := by
  have hcount := countP_erase hmem
  have hbound := hn.bound
  have hreserved := hn.reservedCount
  rw [if_pos hreservation] at hcount
  refine ⟨?_, hn.queuedCount, ?_, by omega⟩
  · refine List.Perm.trans ?_ hn.slots
    exact (map_erase hmem).symm.append_left (free ++ queue)
  · rw [List.countP_cons, hother, if_neg Bool.false_ne_true]
    omega

end NodesAgree

/-! ## Holders -/

namespace NodeHolder

variable {τ : Type} {calls : Nat → SendCall τ} {waits waits' : WorkerWaits (ChannelNode τ)}
  {closes : Nat → ChannelCloseCall}

theorem owns_call (k : Nat) (call : SendCall τ) (h : NodeHolder) (slot : Nat) :
    h.Owns (update calls k call) waits closes slot ↔
      h ≠ .reservation k ∧ h ≠ .refusal k ∧ h.Owns calls waits closes slot ∨
        h = .reservation k ∧ call.reservation = some slot ∨ h = .refusal k ∧ call.refusal = some slot := by
  cases h with
  | reservation j | refusal j =>
    by_cases hj : j = k
    · subst hj
      simp [Owns]
    · simp [Owns, hj]
  | receive w | close c => simp [Owns]

theorem owns_close (c : Nat) (call : ChannelCloseCall) (h : NodeHolder) (slot : Nat) :
    h.Owns calls waits (update closes c call) slot ↔
      h ≠ .close c ∧ h.Owns calls waits closes slot ∨ h = .close c ∧ call = .recycling slot := by
  cases h with
  | close j =>
    by_cases hj : j = c
    · subst hj
      simp [Owns]
    · simp [Owns, hj]
  | reservation k | refusal k | receive w => simp [Owns]

/-- A call that keeps what it holds. -/
theorem owns_sameCall {k : Nat} {call : SendCall τ} (hreservation : call.reservation = (calls k).reservation)
    (hrefusal : call.refusal = (calls k).refusal) (h : NodeHolder) (slot : Nat) :
    h.Owns (update calls k call) waits closes slot ↔ h.Owns calls waits closes slot := by
  rw [owns_call, hreservation, hrefusal]
  by_cases hk : h = .reservation k
  · subst hk
    simp [Owns]
  · by_cases hk' : h = .refusal k
    · subst hk'
      simp [Owns]
    · simp [hk, hk']

/-- A call that lets go of its only slot. -/
theorem owns_release {k slot : Nat} {call : SendCall τ} {holder : NodeHolder}
    (hholder : holder = .reservation k ∧ (calls k).reservation = some slot ∧ (calls k).refusal = none ∨
      holder = .refusal k ∧ (calls k).reservation = none ∧ (calls k).refusal = some slot)
    (hreservation : call.reservation = none) (hrefusal : call.refusal = none) (h : NodeHolder) (slot' : Nat) :
    h.Owns (update calls k call) waits closes slot' ↔
      (h, slot') ≠ (holder, slot) ∧ h.Owns calls waits closes slot' := by
  have hself : ((reservation k).Owns calls waits closes slot' ↔ (calls k).reservation = some slot') ∧
      ((refusal k).Owns calls waits closes slot' ↔ (calls k).refusal = some slot') := ⟨Iff.rfl, Iff.rfl⟩
  rw [owns_call, hreservation, hrefusal]
  grind

theorem owns_quiet (hquiet : WorkerWaits.Quiet waits waits') (h : NodeHolder) (slot : Nat) :
    h.Owns calls waits' closes slot ↔ h.Owns calls waits closes slot := by
  cases h with
  | receive w => exact and_congr (exists_congr fun v => hquiet.value w _) (not_congr (hquiet.resumed w))
  | reservation k | refusal k | close c => exact Iff.rfl

theorem owns_other {v : Nat} (hsame : waits'.awaiters v = waits.awaiters v) (slot : Nat) :
    (receive v).Owns calls waits' closes slot ↔ (receive v).Owns calls waits closes slot := by
  simp only [Owns, result, hsame]

/-- A wait that is completed with a node holds it. -/
theorem owns_completes {w : Nat} {node : ChannelNode τ}
    (hcompletes : WorkerWaits.Completes waits waits' w (.value node)) (h : NodeHolder) (slot : Nat) :
    h.Owns calls waits' closes slot ↔ h.Owns calls waits closes slot ∨ (h, slot) = (.receive w, node.slot) := by
  cases h with
  | receive v =>
    by_cases hv : v = w
    · subst hv
      have hbefore := hcompletes.before
      have hresumed := hcompletes.resumed.2
      constructor
      · rintro ⟨⟨v', hv'⟩, -⟩
        rw [hcompletes.result] at hv'
        cases hv'
        exact .inr rfl
      · rintro (⟨⟨v', hv'⟩, -⟩ | heq)
        · rw [hbefore] at hv'
          cases hv'
        · cases heq
          exact ⟨⟨node.value, hcompletes.result⟩, hresumed⟩
    · rw [owns_other (hcompletes.other v hv)]
      simp [hv]
  | reservation k | refusal k | close c => simp [Owns]

/-- A wait that goes on with a node has it no longer. -/
theorem owns_resumes {w : Nat} {node : ChannelNode τ}
    (hresumes : WorkerWaits.Resumes waits waits' w (.value node)) (h : NodeHolder) (slot : Nat) :
    h.Owns calls waits' closes slot ↔ (h, slot) ≠ (.receive w, node.slot) ∧ h.Owns calls waits closes slot := by
  cases h with
  | receive v =>
    by_cases hv : v = w
    · subst hv
      constructor
      · rintro ⟨-, hne⟩
        exact absurd hresumes.resumed hne
      · rintro ⟨hne, ⟨v', hv'⟩, -⟩
        rw [hresumes.result] at hv'
        cases hv'
        exact absurd rfl hne
    · rw [owns_other (hresumes.other v hv)]
      simp [hv]
  | reservation k | refusal k | close c => simp [Owns]

theorem owns_outcome {w : Nat} {status : WorkerWaitStatus}
    (hresumes : WorkerWaits.Resumes waits waits' w (.outcome status)) (h : NodeHolder) (slot : Nat) :
    h.Owns calls waits' closes slot ↔ h.Owns calls waits closes slot := by
  cases h with
  | receive v =>
    by_cases hv : v = w
    · subst hv
      constructor
      · rintro ⟨-, hne⟩
        exact absurd hresumes.resumed hne
      · rintro ⟨⟨v', hv'⟩, -⟩
        rw [hresumes.result] at hv'
        cases hv'
    · exact owns_other (hresumes.other v hv) slot
  | reservation k | refusal k | close c => exact Iff.rfl

end NodeHolder

/-! ## Sends and receives -/

namespace SendsAgree

variable {τ : Type} {calls : Nat → SendCall τ} {submitted : Nat → Option τ}

/-- A call goes on, and keeps its value if it was not sent. -/
theorem replace (h : SendsAgree calls submitted) {k : Nat} {call : SendCall τ}
    (hheld : ∀ v, call.held = some v → (calls k).held = some v) (hidle : call ≠ .idle) :
    SendsAgree (update calls k call) submitted := by
  refine ⟨fun j v => ?_, fun j => ?_⟩
  all_goals
    by_cases hj : j = k
    · rw [hj, update_self]
      first
        | exact fun hv => h.held k v (hheld v hv)
        | exact fun heq => absurd heq hidle
    · rw [update_of_ne hj]
      first
        | exact h.held j v
        | exact h.idle j

/-- A new call is given its value. -/
theorem call (h : SendsAgree calls submitted) (k : Nat) (v : τ) :
    SendsAgree (update calls k (.called v)) (update submitted k (some v)) := by
  refine ⟨fun j v' => ?_, fun j => ?_⟩
  all_goals
    by_cases hj : j = k
    · rw [hj, update_self, update_self]
      first
        | exact id
        | exact nofun
    · rw [update_of_ne hj, update_of_ne hj]
      first
        | exact h.held j v'
        | exact h.idle j

end SendsAgree

namespace ReceivesAgree

variable {τ : Type} {waits waits' : WorkerWaits (ChannelNode τ)} {received : List (Nat × τ)}
  {delivered : Nat → Option τ}

section

variable (h : ReceivesAgree waits received delivered)
include h

section

variable (hholds : waits'.Holds)
include hholds

theorem quiet (hquiet : WorkerWaits.Quiet waits waits') : ReceivesAgree waits' received delivered := by
  have hresult : ∀ w v, (∃ slot, waits'.result w = some (.value ⟨slot, v⟩)) ↔
      ∃ slot, waits.result w = some (.value ⟨slot, v⟩) := fun w v => exists_congr fun slot => hquiet.value w _
  refine ⟨hholds, fun w v => ?_, h.once, fun w v => ?_⟩
  · rw [hresult]
    exact h.assigned w v
  · rw [hresult, hquiet.resumed]
    exact h.returned w v

/-- A receive is assigned a node. -/
theorem completes {w : Nat} {node : ChannelNode τ}
    (hcompletes : WorkerWaits.Completes waits waits' w (.value node)) :
    ReceivesAgree waits' (received ++ [(w, node.value)]) delivered := by
  have hnone : ∀ v, ¬ ∃ slot, waits.result w = some (.value ⟨slot, v⟩) := by
    rintro v ⟨slot, hv⟩
    rw [hcompletes.before] at hv
    cases hv
  refine ⟨hholds, fun w' v => ?_, ?_, fun w' v => ?_⟩
  · rw [List.mem_append, List.mem_singleton, h.assigned]
    by_cases hw : w' = w
    · subst hw
      rw [hcompletes.result]
      constructor
      · rintro (hold | heq)
        · exact absurd hold (hnone v)
        · cases heq
          exact ⟨node.slot, rfl⟩
      · rintro ⟨slot, hv⟩
        cases hv
        exact .inr rfl
    · unfold result
      rw [hcompletes.other w' hw]
      simp [hw]
  · rw [List.map_append, List.nodup_append]
    refine ⟨h.once, List.nodup_singleton _, ?_⟩
    rintro a ha b hb rfl
    obtain rfl := List.mem_singleton.mp hb
    obtain ⟨⟨w', v⟩, hmem, rfl⟩ := List.mem_map.mp ha
    exact hnone v ((h.assigned w' v).mp hmem)
  · rw [h.returned]
    by_cases hw : w' = w
    · subst hw
      exact ⟨fun hold => absurd hold.1 (hnone v), fun hnew => absurd hnew.2 hcompletes.resumed.2⟩
    · unfold result
      rw [hcompletes.other w' hw]

/-- A receive goes on without a value. -/
theorem outcome {w : Nat} {status : WorkerWaitStatus}
    (hresumes : WorkerWaits.Resumes waits waits' w (.outcome status)) :
    ReceivesAgree waits' received delivered := by
  refine ⟨hholds, fun w' v => ?_, h.once, fun w' v => ?_⟩
  · rw [hresumes.results]
    exact h.assigned w' v
  · rw [hresumes.results, h.returned]
    by_cases hw : w' = w
    · subst hw
      rw [hresumes.result]
      constructor <;> (rintro ⟨⟨slot, hv⟩, -⟩; cases hv)
    · rw [hresumes.other w' hw]

/-- A receive returns its value. -/
theorem returns {w : Nat} {node : ChannelNode τ}
    (hresumes : WorkerWaits.Resumes waits waits' w (.value node)) :
    ReceivesAgree waits' received (update delivered w (some node.value)) := by
  refine ⟨hholds, fun w' v => ?_, h.once, fun w' v => ?_⟩
  · rw [hresumes.results]
    exact h.assigned w' v
  · rw [hresumes.results]
    by_cases hw : w' = w
    · subst hw
      rw [update_self, hresumes.result]
      constructor
      · rintro heq
        cases heq
        exact ⟨⟨node.slot, rfl⟩, hresumes.resumed⟩
      · rintro ⟨⟨slot, hv⟩, -⟩
        cases hv
        rfl
    · rw [update_of_ne hw, hresumes.other w' hw]
      exact h.returned w' v

end

end

end ReceivesAgree

namespace Channel

variable {τ : Type} {s : Channel τ} {holders : List (NodeHolder × Nat)}

/-! ## Sending -/

variable {k : Nat}

theorem Agrees.send (h : s.Agrees holders) (hidle : s.calls k = .idle) (v : τ) :
    Agrees { s.setCall k (.called v) with submitted := update s.submitted k (some v) } holders := by
  refine { h with owners := fun holder slot => ?_, sends := h.sends.call k v }
  show _ ↔ holder.Owns (update s.calls k _) s.waits s.closes slot
  rw [NodeHolder.owns_sameCall (by rw [hidle]; rfl) (by rw [hidle]; rfl)]
  exact h.owners holder slot

/-- A call goes on with what it holds. -/
theorem Agrees.setCall (h : s.Agrees holders) {call : SendCall τ}
    (hreservation : call.reservation = (s.calls k).reservation) (hrefusal : call.refusal = (s.calls k).refusal)
    (hheld : ∀ v, call.held = some v → (s.calls k).held = some v) (hidle : call ≠ .idle) :
    (s.setCall k call).Agrees holders := by
  refine { h with owners := fun holder slot => ?_, sends := h.sends.replace hheld hidle }
  show _ ↔ holder.Owns (update s.calls k _) s.waits s.closes slot
  rw [NodeHolder.owns_sameCall hreservation hrefusal]
  exact h.owners holder slot

variable {slot : Nat}

theorem reserveNode_some {t : Channel τ} (h : s.reserveNode = some (t, slot)) :
    s.queued + s.reserved ≠ s.capacity ∧ s.free = slot :: t.free ∧
      t = { s with free := t.free, reserved := s.reserved + 1 } := by
  unfold reserveNode at h
  split at h
  · cases h
  · rename_i hroom
    split at h
    · cases h
    · rename_i free hfree
      cases h
      exact ⟨hroom, hfree, rfl⟩

section

variable (h : s.Agrees holders)
include h

theorem Agrees.reserve {v : τ} (hcall : s.calls k = .called v) (accepting : Bool) :
    ∃ holders', (s.reserve k v accepting).Agrees holders' := by
  have hreject : ∀ status, (s.setCall k (.rejected status v)).Agrees holders := fun status =>
    h.setCall (by rw [hcall]; rfl) (by rw [hcall]; rfl) (fun v' hv => by rw [hcall]; exact hv) nofun
  unfold Channel.reserve
  split
  · exact ⟨holders, hreject _⟩
  · split
    · exact ⟨holders, hreject _⟩
    · split
      · exact ⟨holders, hreject _⟩
      · rename_i t slot hreserve
        obtain ⟨hroom, hfree, ht⟩ := reserveNode_some hreserve
        generalize t.free = free at hfree ht
        subst ht
        refine ⟨(.reservation k, slot) :: holders, ?_, fun holder slot' => ?_,
          h.sends.replace (fun v' hv => by rw [hcall]; exact hv) nofun, h.receives, h.waiter, h.retired,
          h.retiring, h.destroyed, h.accepted⟩
        · exact NodesAgree.reserve (hfree ▸ h.nodes) hroom k
        · show _ ↔ holder.Owns (update s.calls k _) s.waits s.closes slot'
          have hnone : ¬ NodeHolder.Owns s.calls s.waits s.closes (.reservation k) slot' ∧
              ¬ NodeHolder.Owns s.calls s.waits s.closes (.refusal k) slot' := by
            simp [NodeHolder.Owns, hcall, SendCall.reservation, SendCall.refusal]
          rw [NodeHolder.owns_call, List.mem_cons, h.owners, Prod.mk.injEq]
          simp only [SendCall.reservation, SendCall.refusal, Option.some.injEq]
          grind

theorem Agrees.emplace {v : τ} (hcall : s.calls k = .reserved v slot) (throws : Bool) :
    (s.setCall k (if throws then .unreserving v slot else .stored ⟨slot, v⟩)).Agrees holders := by
  refine h.setCall ?_ ?_ (fun v' hv => ?_) ?_ <;> cases throws
  all_goals first
    | rintro ⟨⟩
    | rw [hcall]
      first
        | rfl
        | exact hv

theorem Agrees.unreserve {v : τ} (hcall : s.calls k = .unreserving v slot) :
    (s.unreserve k v slot).Agrees (holders.erase (.reservation k, slot)) := by
  have hmem : (NodeHolder.reservation k, slot) ∈ holders :=
    (h.owners _ _).mpr (by simp [NodeHolder.Owns, hcall, SendCall.reservation])
  refine ⟨h.nodes.recycle hmem, fun holder slot' => ?_,
    h.sends.replace (fun v' hv => by rw [hcall]; exact hv) nofun, h.receives, h.waiter, h.retired, h.retiring,
    h.destroyed, h.accepted⟩
  show _ ↔ holder.Owns (update s.calls k _) s.waits s.closes slot'
  rw [h.nodes.mem_erase, h.owners, NodeHolder.owns_release (.inl ⟨rfl, by rw [hcall]; exact ⟨rfl, rfl⟩⟩) rfl rfl]

theorem Agrees.publish {node : ChannelNode τ} (hcall : s.calls k = .stored node) (accepting : Bool) :
    ∃ holders', (s.publish k node accepting).Agrees holders' := by
  have hmem : (NodeHolder.reservation k, node.slot) ∈ holders :=
    (h.owners _ _).mpr (by simp [NodeHolder.Owns, hcall, SendCall.reservation])
  have hrelease := @NodeHolder.owns_release τ s.calls s.waits s.closes k node.slot .sent (.reservation k)
    (.inl ⟨rfl, by rw [hcall]; exact ⟨rfl, rfl⟩⟩) rfl rfl
  have hsent : SendsAgree (update s.calls k .sent) s.submitted :=
    h.sends.replace (fun v' hv => by cases hv) nofun
  have hreject : ∀ status,
      Agrees ({ s with reserved := s.reserved - 1 }.setCall k (.rejecting status node))
        ((.refusal k, node.slot) :: holders.erase (.reservation k, node.slot)) := by
    intro status
    refine ⟨h.nodes.handOver hmem rfl rfl, fun holder slot' => ?_,
      h.sends.replace (fun v' hv => by rw [hcall]; exact hv) nofun, h.receives, h.waiter, h.retired,
      h.retiring, h.destroyed, h.accepted⟩
    show _ ↔ holder.Owns (update s.calls k _) s.waits s.closes slot'
    have hself : (NodeHolder.reservation k).Owns s.calls s.waits s.closes slot' ↔ node.slot = slot' := by
      simp [NodeHolder.Owns, hcall, SendCall.reservation]
    have hother : ¬ (NodeHolder.refusal k).Owns s.calls s.waits s.closes slot' := by
      simp [NodeHolder.Owns, hcall, SendCall.refusal]
    rw [NodeHolder.owns_call, List.mem_cons, h.nodes.mem_erase, h.owners]
    simp only [SendCall.reservation, SendCall.refusal, Option.some.injEq]
    grind
  unfold Channel.publish
  dsimp only
  split
  · exact ⟨_, hreject _⟩
  · rename_i hclosed
    split
    · exact ⟨_, hreject _⟩
    · rename_i hstopping
      have hopen : s.lifecycle = .open := by
        cases hlifecycle : s.lifecycle <;> simp_all
      have hdestroyed : s.destroyed = [] := by
        by_contra hne
        exact h.retired (h.destroyed hne) hopen
      split
      · rename_i w hw
        replace hw : s.waits.waiter = some w := hw
        obtain ⟨hholds, hcompletes, hwaiter⟩ := complete_attached h.receives.holds hw (.value node)
        refine ⟨(.receive w, node.slot) :: holders.erase (.reservation k, node.slot), h.nodes.handOver hmem rfl rfl,
          fun holder slot' => ?_, hsent, h.receives.completes hholds hcompletes, fun v hv => ?_, h.retired,
          h.retiring, h.destroyed, ?_⟩
        · show _ ↔ holder.Owns (update s.calls k _) (s.waits.complete (.value node)) s.closes slot'
          rw [NodeHolder.owns_completes hcompletes, hrelease, List.mem_cons, h.nodes.mem_erase, h.owners, or_comm]
        · replace hv : (s.waits.complete (.value node)).waiter = some v := hv
          rw [hwaiter] at hv
          cases hv
        · have hempty : s.queue = [] := (h.waiter w hw).1
          show s.accepted ++ [node.value] =
            (s.received ++ [(w, node.value)]).map Prod.snd ++ s.destroyed ++ s.queue.map ChannelNode.value
          rw [h.accepted, hdestroyed, hempty]
          simp
      · rename_i hw
        replace hw : s.waits.waiter = none := hw
        refine ⟨holders.erase (.reservation k, node.slot), ?_, fun holder slot' => ?_, hsent, h.receives,
          fun v hv => ?_, h.retired, h.retiring, h.destroyed, ?_⟩
        · have := h.nodes.enqueue hmem rfl
          simpa [Channel.enqueue, Channel.setCall] using this
        · show _ ↔ holder.Owns (update s.calls k _) s.waits s.closes slot'
          rw [hrelease, h.nodes.mem_erase, h.owners]
        · rw [show s.waits.waiter = some v from hv] at hw
          cases hw
        · show s.accepted ++ [node.value] = _ ++ _ ++ (s.queue ++ [node]).map ChannelNode.value
          rw [h.accepted, List.map_append, ← List.append_assoc]
          rfl

theorem Agrees.takeBack {status : ChannelSendStatus} {node : ChannelNode τ}
    (hcall : s.calls k = .rejecting status node) :
    ((s.recycleSlot node.slot).setCall k (.rejected status node.value)).Agrees
      (holders.erase (.refusal k, node.slot)) := by
  have hmem : (NodeHolder.refusal k, node.slot) ∈ holders :=
    (h.owners _ _).mpr (by simp [NodeHolder.Owns, hcall, SendCall.refusal])
  refine ⟨h.nodes.recycle hmem, fun holder slot' => ?_,
    h.sends.replace (fun v' hv => by rw [hcall]; exact hv) nofun, h.receives, h.waiter, h.retired, h.retiring,
    h.destroyed, h.accepted⟩
  show _ ↔ holder.Owns (update s.calls k _) s.waits s.closes slot'
  rw [h.nodes.mem_erase, h.owners, NodeHolder.owns_release (.inr ⟨rfl, by rw [hcall]; exact ⟨rfl, rfl⟩⟩) rfl rfl]

/-! ## Receiving -/

/-- No node changes hands, and no receive that was not waiting waits. -/
theorem Agrees.quietWaits {waits : WorkerWaits (ChannelNode τ)} (hwaits : waits.Holds ∧
    WorkerWaits.Quiet s.waits waits ∧ ∀ v, waits.waiter = some v → s.waits.waiter = some v) :
    Agrees { s with waits } holders :=
  { h with
    owners := fun holder slot => by rw [h.owners, NodeHolder.owns_quiet hwaits.2.1]
    receives := h.receives.quiet hwaits.1 hwaits.2.1
    waiter := fun v hv => h.waiter v (hwaits.2.2 v hv) }

end

variable {w : Nat}

theorem Agrees.completeReady (h : s.Agrees holders) (hcold : (s.waits.awaiters w).progress = .cold)
    (status : WorkerWaitStatus) : Agrees { s with waits := s.waits.completeReady w (.outcome status) } holders := by
  obtain ⟨hholds, hcompletes, hwaiter⟩ := completeReady_spec h.receives.holds hcold (.outcome status)
  exact h.quietWaits ⟨hholds, hcompletes.quiet, fun v hv => hwaiter ▸ hv⟩

theorem dequeue_some {t : Channel τ} {node : ChannelNode τ} (h : s.dequeue = some (t, node)) :
    s.queue = node :: t.queue ∧ t = { s with queue := t.queue, queued := s.queued - 1 } := by
  unfold dequeue at h
  split at h
  · cases h
  · rename_i queue hqueue
    cases h
    exact ⟨hqueue, rfl⟩

theorem dequeue_none (h : s.dequeue = none) : s.queue = [] := by
  unfold dequeue at h
  split at h
  · assumption
  · cases h

theorem Agrees.awaitReady (h : s.Agrees holders) (hcold : (s.waits.awaiters w).progress = .cold)
    (stopRequested expired stoppable : Bool) :
    ∃ holders', (s.awaitReady w stopRequested expired stoppable).Agrees holders' := by
  unfold Channel.awaitReady
  split
  · exact ⟨holders, h.completeReady hcold _⟩
  · rename_i hnotRetired
    split
    · rename_i t node hdequeue
      obtain ⟨hqueue, ht⟩ := dequeue_some hdequeue
      generalize t.queue = queue at hqueue ht
      subst ht
      obtain ⟨hholds, hcompletes, hwaiter⟩ := completeReady_spec h.receives.holds hcold (.value node)
      have hnodes := h.nodes
      rw [hqueue, List.map_cons] at hnodes
      refine ⟨(.receive w, node.slot) :: holders, hnodes.dequeue rfl, fun holder slot' => ?_, h.sends,
        h.receives.completes hholds hcompletes, fun v hv => ?_, h.retired, h.retiring, h.destroyed, ?_⟩
      · rw [NodeHolder.owns_completes hcompletes, List.mem_cons, h.owners, or_comm]
      · have hv : s.waits.waiter = some v := hwaiter ▸ hv
        have hempty := (h.waiter v hv).1
        rw [hqueue] at hempty
        cases hempty
      · have hdestroyed : s.destroyed = [] := by
          by_contra hne
          exact hnotRetired (h.destroyed hne)
        rw [h.accepted, hdestroyed, hqueue]
        simp
    · rename_i hdequeue
      split
      · exact ⟨holders, h.completeReady hcold _⟩
      · exact ⟨holders, h.completeReady hcold _⟩
      · rename_i hopen
        have hempty : s.queue = [] := dequeue_none hdequeue
        obtain ⟨hholds, hquiet, _⟩ :=
          completeOrPublish_spec h.receives.holds hcold stopRequested expired stoppable
        refine ⟨holders, h.nodes, fun holder slot' => ?_, h.sends, h.receives.quiet hholds hquiet,
          fun v hv => ⟨hempty, hopen⟩, h.retired, h.retiring, h.destroyed, h.accepted⟩
        rw [h.owners, NodeHolder.owns_quiet hquiet]

theorem Agrees.awaitResume (h : s.Agrees holders) {t : Channel τ} (hresume : s.awaitResume w = some t) :
    ∃ holders', t.Agrees holders' := by
  unfold Channel.awaitResume at hresume
  split at hresume
  · cases hresume
  · rename_i waits status hwait
    cases hresume
    obtain ⟨hholds, hresumes⟩ := awaitResume_spec h.receives.holds hwait
    refine ⟨holders, h.nodes, fun holder slot' => ?_, h.sends, h.receives.outcome hholds hresumes, fun v hv => ?_,
      h.retired, h.retiring, h.destroyed, h.accepted⟩
    · rw [h.owners, NodeHolder.owns_outcome hresumes]
    · exact h.waiter v (hresumes.waiter ▸ hv)
  · rename_i waits node hwait
    cases hresume
    obtain ⟨hholds, hresumes⟩ := awaitResume_spec h.receives.holds hwait
    have hmem : (NodeHolder.receive w, node.slot) ∈ holders :=
      (h.owners _ _).mpr ⟨⟨node.value, hresumes.result⟩, hresumes.before⟩
    refine ⟨holders.erase (.receive w, node.slot), h.nodes.recycle hmem, fun holder slot' => ?_, h.sends,
      h.receives.returns hholds hresumes, fun v hv => ?_, h.retired, h.retiring, h.destroyed, h.accepted⟩
    · show _ ↔ holder.Owns s.calls waits s.closes slot'
      rw [h.nodes.mem_erase, h.owners, NodeHolder.owns_resumes hresumes]
    · exact h.waiter v (hresumes.waiter ▸ hv)

/-! ## Closing -/

theorem Agrees.close (h : s.Agrees holders) {c : Nat} (hidle : s.closes c = .idle) (retireReceiver : Bool) :
    (s.close c retireReceiver).Agrees holders := by
  obtain ⟨hholds, hquiet, hwaiter⟩ := complete_outcome h.receives.holds .closed
  have howners : ∀ holder slot', (holder, slot') ∈ holders ↔ holder.Owns s.calls s.waits
      (update s.closes c (if retireReceiver then .draining else .returned)) slot' := by
    intro holder slot'
    have hnone : ¬ (NodeHolder.close c).Owns s.calls s.waits s.closes slot' := by
      simp [NodeHolder.Owns, hidle]
    rw [NodeHolder.owns_close, h.owners]
    cases retireReceiver <;> grind
  have hretiring : ∀ j, update s.closes c (if retireReceiver then .draining else .returned) j = .draining ∨
      (∃ slot, update s.closes c (if retireReceiver then .draining else .returned) j = .recycling slot) →
      (s.receiverClosed || retireReceiver) = true := by
    intro j hj
    by_cases hc : j = c
    · rw [hc, update_self] at hj
      cases retireReceiver with
      | true => exact Bool.or_true _
      | false =>
        rcases hj with hj | ⟨slot, hj⟩
        · cases hj
        · cases hj
    · rw [update_of_ne hc] at hj
      rw [h.retiring j hj]
      rfl
  have hdestroyed : s.destroyed ≠ [] → (s.receiverClosed || retireReceiver) = true := by
    intro hne
    rw [h.destroyed hne]
    rfl
  unfold Channel.close
  dsimp only
  split
  · refine ⟨h.nodes, fun holder slot' => ?_, h.sends, h.receives.quiet hholds hquiet, fun v hv => ?_,
      nofun, hretiring, hdestroyed, h.accepted⟩
    · rw [howners]
      exact (NodeHolder.owns_quiet hquiet holder slot').symm
    · replace hv : (s.waits.complete (.outcome .closed)).waiter = some v := hv
      rw [hwaiter] at hv
      cases hv
  · rename_i hclosed
    exact ⟨h.nodes, howners, h.sends, h.receives, h.waiter, fun _ => hclosed, hretiring, hdestroyed, h.accepted⟩

theorem Agrees.drain (h : s.Agrees holders) {c : Nat} (hdraining : s.closes c = .draining) :
    ∃ holders', (s.drain c).Agrees holders' := by
  have hretired := h.retiring c (.inl hdraining)
  have hnone : ∀ slot', ¬ (NodeHolder.close c).Owns s.calls s.waits s.closes slot' := by
    intro slot'
    simp [NodeHolder.Owns, hdraining]
  unfold Channel.drain
  split
  · refine ⟨holders, h.nodes, fun holder slot' => ?_, h.sends, h.receives, h.waiter, h.retired, fun _ _ => hretired,
      h.destroyed, h.accepted⟩
    rw [NodeHolder.owns_close, h.owners]
    grind
  · rename_i t node hdequeue
    obtain ⟨hqueue, ht⟩ := dequeue_some hdequeue
    generalize t.queue = queue at hqueue ht
    subst ht
    have hnodes := h.nodes
    rw [hqueue, List.map_cons] at hnodes
    refine ⟨(.close c, node.slot) :: holders, hnodes.dequeue rfl, fun holder slot' => ?_, h.sends, h.receives,
      fun v hv => ?_, h.retired, fun _ _ => hretired, fun _ => hretired, ?_⟩
    · rw [NodeHolder.owns_close, List.mem_cons, h.owners, ChannelCloseCall.recycling.injEq]
      grind
    · have hempty := (h.waiter v hv).1
      rw [hqueue] at hempty
      cases hempty
    · rw [h.accepted, hqueue]
      simp

theorem Agrees.recycle (h : s.Agrees holders) {c : Nat} (hrecycling : s.closes c = .recycling slot) :
    Agrees { s.recycleSlot slot with closes := update s.closes c .draining }
      (holders.erase (.close c, slot)) := by
  have hretired := h.retiring c (.inr ⟨slot, hrecycling⟩)
  have hmem : (NodeHolder.close c, slot) ∈ holders := (h.owners _ _).mpr hrecycling
  refine ⟨h.nodes.recycle hmem, fun holder slot' => ?_, h.sends, h.receives, h.waiter, h.retired, fun _ _ => hretired,
    h.destroyed, h.accepted⟩
  have hself : (NodeHolder.close c).Owns s.calls s.waits s.closes slot' ↔ slot = slot' := by
    simp [NodeHolder.Owns, hrecycling]
  show _ ↔ holder.Owns s.calls s.waits (update s.closes c _) slot'
  rw [NodeHolder.owns_close, h.nodes.mem_erase, h.owners]
  grind

theorem Agrees.workerStopping (h : s.Agrees holders) : s.workerStopping.Agrees holders := by
  obtain ⟨hholds, hquiet, hwaiter⟩ := complete_outcome h.receives.holds .workerStopping
  refine ⟨h.nodes, fun holder slot' => ?_, h.sends, h.receives.quiet hholds hquiet, fun v hv => ?_,
    nofun, h.retiring, h.destroyed, h.accepted⟩
  · rw [h.owners]
    exact (NodeHolder.owns_quiet hquiet holder slot').symm
  · replace hv : (s.waits.complete (.outcome .workerStopping)).waiter = some v := hv
    rw [hwaiter] at hv
    cases hv

/-! ## Runs -/

/-- **Every action keeps the invariant.** -/
theorem Agrees.step (h : s.Agrees holders) {action : ChannelAction τ} {t : Channel τ}
    (hstep : s.step action = some t) : ∃ holders', t.Agrees holders' := by
  unfold Channel.step at hstep
  split at hstep
  · split at hstep <;> cases hstep
    exact ⟨holders, h.send ‹_› _⟩
  · split at hstep <;> cases hstep
    exact h.reserve ‹_› _
  · split at hstep <;> cases hstep
    exact ⟨holders, h.emplace ‹_› _⟩
  · split at hstep <;> cases hstep
    exact ⟨_, h.unreserve ‹_›⟩
  · split at hstep <;> cases hstep
    exact h.publish ‹_› _
  · split at hstep <;> cases hstep
    exact ⟨_, h.takeBack ‹_›⟩
  · split at hstep <;> cases hstep
    exact h.awaitReady ‹_› _ _ _
  · split at hstep <;> cases hstep
    exact ⟨holders, h.quietWaits (suspend_spec h.receives.holds ‹_› _ _)⟩
  · obtain ⟨waits, hfires, rfl⟩ := Option.map_eq_some_iff.mp hstep
    exact ⟨holders, h.quietWaits (timerFires_spec h.receives.holds hfires)⟩
  · obtain ⟨waits, hfires, rfl⟩ := Option.map_eq_some_iff.mp hstep
    exact ⟨holders, h.quietWaits (stopFires_spec h.receives.holds hfires)⟩
  · exact h.awaitResume hstep
  · split at hstep <;> cases hstep
    exact ⟨holders, h.close ‹_› _⟩
  · split at hstep <;> cases hstep
    exact h.drain ‹_›
  · split at hstep <;> cases hstep
    exact ⟨_, h.recycle ‹_›⟩
  · cases hstep
    exact ⟨holders, h.workerStopping⟩

theorem init_agrees (capacity : Nat) : (init capacity : Channel τ).Agrees [] where
  nodes := ⟨by
    show ((List.range (capacity + 1)).reverse ++ [] ++ []).Perm _
    rw [List.append_nil, List.append_nil]
    exact List.reverse_perm _, rfl, rfl, Nat.zero_le _⟩
  owners holder slot := by
    cases holder <;> simp [NodeHolder.Owns, init, SendCall.reservation, SendCall.refusal, result,
      SuspendRaceState.takeValue]
  sends := ⟨nofun, fun _ _ => rfl⟩
  receives := ⟨⟨rfl, fun _ => ⟨nofun, rfl, rfl, rfl⟩⟩,
    fun w v => by simp [init, result, SuspendRaceState.takeValue], List.nodup_nil,
    fun w v => by simp [init, result, SuspendRaceState.takeValue]⟩
  waiter _ hw := by cases hw
  retired hretired := by cases hretired
  retiring c hc := by
    rcases hc with hc | ⟨slot, hc⟩ <;> cases hc
  destroyed hne := absurd rfl hne
  accepted := rfl

theorem agrees_of_reachable {capacity : Nat} (h : (channelMachine τ capacity).Reachable s) :
    ∃ holders, s.Agrees holders := by
  refine StateMachine.Reachable.invariant (P := fun s => ∃ holders, s.Agrees holders) ?_ ?_ h
  · rintro s rfl
    exact ⟨[], init_agrees capacity⟩
  · rintro s action t ⟨holders, hagrees⟩ hstep
    exact hagrees.step hstep

@[simp] theorem reserve_capacity (k : Nat) (v : τ) (accepting : Bool) :
    (s.reserve k v accepting).capacity = s.capacity := by
  unfold Channel.reserve
  split
  · rfl
  · split
    · rfl
    · split
      · rfl
      · rename_i hreserve
        have := congrArg Channel.capacity (reserveNode_some hreserve).2.2
        exact this

@[simp] theorem publish_capacity (k : Nat) (node : ChannelNode τ) (accepting : Bool) :
    (s.publish k node accepting).capacity = s.capacity := by
  unfold Channel.publish
  dsimp only
  split
  · rfl
  · split
    · rfl
    · split <;> rfl

@[simp] theorem awaitReady_capacity (w : Nat) (stopRequested expired stoppable : Bool) :
    (s.awaitReady w stopRequested expired stoppable).capacity = s.capacity := by
  unfold Channel.awaitReady
  split
  · rfl
  · split
    · rename_i hdequeue
      have := congrArg Channel.capacity (dequeue_some hdequeue).2
      exact this
    · split <;> rfl

@[simp] theorem close_capacity (c : Nat) (retireReceiver : Bool) :
    (s.close c retireReceiver).capacity = s.capacity := by
  unfold Channel.close
  dsimp only
  split <;> rfl

@[simp] theorem drain_capacity (c : Nat) : (s.drain c).capacity = s.capacity := by
  unfold Channel.drain
  split
  · rfl
  · rename_i hdequeue
    have := congrArg Channel.capacity (dequeue_some hdequeue).2
    exact this

theorem capacity_step {action : ChannelAction τ} {t : Channel τ} (hstep : s.step action = some t) :
    t.capacity = s.capacity := by
  unfold Channel.step at hstep
  split at hstep
  case h_9 | h_10 =>
    obtain ⟨waits, _, rfl⟩ := Option.map_eq_some_iff.mp hstep
    rfl
  case h_11 =>
    unfold Channel.awaitResume at hstep
    split at hstep <;> cases hstep <;> rfl
  case h_15 =>
    cases hstep
    rfl
  all_goals split at hstep <;> cases hstep
  all_goals first
    | rfl
    | simp

theorem capacity_of_reachable {capacity : Nat} (h : (channelMachine τ capacity).Reachable s) :
    s.capacity = capacity := by
  refine StateMachine.Reachable.invariant (P := fun s => s.capacity = capacity) ?_ ?_ h
  · rintro s rfl
    rfl
  · rintro s action t hcapacity hstep
    exact (capacity_step hstep).trans hcapacity

/-! ## Conservation and delivery -/

/-- A slot that was taken out of the queue, or handed over past it, and is not yet recycled. -/
def Claimed (s : Channel τ) (slot : Nat) : Prop :=
  (∃ k, (s.calls k).refusal = some slot) ∨
    (∃ w v, s.waits.result w = some (.value ⟨slot, v⟩) ∧ (s.waits.awaiters w).progress ≠ .resumed) ∨
    ∃ c, s.closes c = .recycling slot

theorem Agrees.slots (h : s.Agrees holders) :
    ∃ reserved claimed : List Nat,
      (s.free ++ s.queue.map ChannelNode.slot ++ reserved ++ claimed).Perm (List.range (s.capacity + 1)) ∧
        reserved.length = s.reserved ∧ (∀ slot, slot ∈ reserved ↔ ∃ k, (s.calls k).reservation = some slot) ∧
        ∀ slot, slot ∈ claimed ↔ s.Claimed slot := by
  refine ⟨(holders.filter fun entry => entry.1.isReservation).map Prod.snd,
    (holders.filter fun entry => !entry.1.isReservation).map Prod.snd, ?_, ?_, fun slot => ?_, fun slot => ?_⟩
  · refine List.Perm.trans ?_ h.nodes.slots
    rw [List.append_assoc _ (List.map _ _), ← List.map_append]
    exact ((List.filter_append_perm _ holders).map Prod.snd).append_left _
  · rw [List.length_map, h.nodes.reservedCount, List.countP_eq_length_filter]
  all_goals
    simp only [List.mem_map, List.mem_filter, Prod.exists, h.owners]
    constructor
  · rintro ⟨holder, slot', ⟨howns, hreservation⟩, rfl⟩
    cases holder with
    | reservation k => exact ⟨k, howns⟩
    | refusal k | receive w | close c => cases hreservation
  · rintro ⟨k, hk⟩
    exact ⟨.reservation k, slot, ⟨hk, rfl⟩, rfl⟩
  · rintro ⟨holder, slot', ⟨howns, hreservation⟩, rfl⟩
    cases holder with
    | reservation k => cases hreservation
    | refusal k => exact .inl ⟨k, howns⟩
    | receive w =>
      obtain ⟨⟨v, hv⟩, hprogress⟩ := howns
      exact .inr (.inl ⟨w, v, hv, hprogress⟩)
    | close c => exact .inr (.inr ⟨c, howns⟩)
  · rintro (⟨k, hk⟩ | ⟨w, v, hv, hprogress⟩ | ⟨c, hc⟩)
    · exact ⟨.refusal k, slot, ⟨hk, rfl⟩, rfl⟩
    · exact ⟨.receive w, slot, ⟨⟨⟨v, hv⟩, hprogress⟩, rfl⟩, rfl⟩
    · exact ⟨.close c, slot, ⟨hc, rfl⟩, rfl⟩

/-- A receive that was assigned a value returns it, once, if it has gone on, and else will. -/
theorem Agrees.delivery (h : s.Agrees holders) {v : τ} (hreceived : (w, v) ∈ s.received) :
    s.delivered w = some v ∧ (s.waits.awaiters w).resumes = 1 ∨
      s.delivered w = none ∧ (s.waits.awaiters w).resumes = 0 ∧ s.waits.Lively w := by
  have hresult := (h.receives.assigned w v).mp hreceived
  obtain ⟨hresumes, -, hresumed, hprogress⟩ := h.receives.holds.once w
  by_cases hgone : (s.waits.awaiters w).progress = .resumed
  · exact .inl ⟨(h.receives.returned w v).mpr ⟨hresult, hgone⟩, hresumed.mpr hgone⟩
  · refine .inr ⟨?_, ?_, ?_⟩
    · rw [Option.eq_none_iff_forall_ne_some]
      exact fun v' hv' => hgone ((h.receives.returned w v').mp hv').2
    · have := hresumed.not.mpr hgone
      omega
    · obtain ⟨slot, hslot⟩ := hresult
      have hc := h.receives.holds.consistent w
      unfold WorkerSingleWaitAwaiter.Consistent at hc
      unfold result at hslot
      rcases hprogress with hcold | hresumed' | hthrew | hlively
      · rw [hcold] at hc
        rw [hc.2.1] at hslot
        cases hslot
      · exact absurd hresumed' hgone
      · rw [hthrew] at hc
        rw [hc.2.1] at hslot
        cases hslot
      · exact hlively

end Channel

end Ruvia.Core
