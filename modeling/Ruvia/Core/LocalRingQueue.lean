import Mathlib.Data.List.Range
import Mathlib.Logic.Function.Basic

/-!
# `Core.LocalRingQueue` — a bounded queue in a ring of slots

`local_ring_queue` against a list of at most `capacity` values (`BoundedQueue`). A step that would terminate has no
result. A slot of the ring always holds some value: an assignment that throws leaves one there (`fails`), and so does
a value that is moved out (`moved`).
-/

namespace Ruvia.Core

open Function

inductive RingAction (τ : Type) where
  | tryPush (value : τ) (fails : Option τ)
  | preparePush
  /-- The caller assigns to the slot it was handed. -/
  | assign (value : τ)
  | commitPush
  | cancelPush
  | front
  | pop
  | tryPop (moved : τ)

inductive RingResult (τ : Type) where
  | pushed (accepted : Bool)
  | threw
  | slot (handed : Bool)
  | done
  | element (value : Option τ)

/-! ## The list -/

/-- A queue of at most `capacity` values, with the value in the slot that is prepared. -/
structure BoundedQueue (τ : Type) where
  items : List τ := []
  pending : Option τ := none

namespace BoundedQueue

variable {τ : Type}

/-- One operation; `found` is what the slot that is handed out holds. -/
def step (capacity : Nat) (queue : BoundedQueue τ) (found : τ) :
    RingAction τ → Option (BoundedQueue τ × RingResult τ)
  | .tryPush value fails =>
    match queue.pending with
    | some _ => none
    | none =>
      if queue.items.length = capacity then some (queue, .pushed false)
      else if fails.isSome then some (queue, .threw)
      else some ({ items := queue.items ++ [value] }, .pushed true)
  | .preparePush =>
    match queue.pending with
    | some _ => none
    | none =>
      if queue.items.length = capacity then some (queue, .slot false)
      else some ({ queue with pending := some found }, .slot true)
  | .assign value => queue.pending.map fun _ => ({ queue with pending := some value }, .done)
  | .commitPush => queue.pending.map fun value => ({ items := queue.items ++ [value] }, .done)
  | .cancelPush => some ({ queue with pending := none }, .done)
  | .front => some (queue, .element queue.items.head?)
  | .pop =>
    match queue.items with
    | [] => none
    | _ :: items => some ({ queue with items }, .done)
  | .tryPop _ =>
    match queue.items with
    | [] => some (queue, .element none)
    | value :: items => some ({ queue with items }, .element (some value))

/-- Operations with what each finds. -/
def run (capacity : Nat) : BoundedQueue τ → List (RingAction τ × τ) → Option (BoundedQueue τ × List (RingResult τ))
  | queue, [] => some (queue, [])
  | queue, (action, found) :: rest =>
    (queue.step capacity found action).bind fun (next, result) =>
      (run capacity next rest).map fun (last, results) => (last, result :: results)

end BoundedQueue

/-! ## The ring -/

/-- The constructor throws for a capacity of zero. -/
structure RingCapacity where
  value : Nat
  positive : 0 < value

/-- The ring; `handed` is the slot that `prepare_push` handed out last. -/
structure LocalRingQueue (τ : Type) where
  capacity : RingCapacity
  storage : Nat → τ
  head : Nat := 0
  size : Nat := 0
  prepared : Bool := false
  handed : Nat := 0

namespace LocalRingQueue

variable {τ : Type} (q : LocalRingQueue τ)

def slotIndex (offset : Nat) : Nat :=
  let remaining := q.capacity.value - q.head
  if offset ≥ remaining then offset - remaining else q.head + offset

def preparePush : Option (LocalRingQueue τ × Option Nat) :=
  if q.prepared then none
  else if q.size = q.capacity.value then some (q, none)
  else some ({ q with prepared := true, handed := q.slotIndex q.size }, some (q.slotIndex q.size))

def commitPush : Option (LocalRingQueue τ) :=
  if q.prepared then some { q with prepared := false, size := q.size + 1 } else none

def cancelPush : LocalRingQueue τ := { q with prepared := false }

def store (slot : Nat) (value : τ) : LocalRingQueue τ := { q with storage := update q.storage slot value }

def front : Option τ := if q.size = 0 then none else some (q.storage q.head)

def pop : Option (LocalRingQueue τ) :=
  if q.size = 0 then none else some { q with head := q.slotIndex 1, size := q.size - 1 }

def tryPop (moved : τ) : Option (LocalRingQueue τ × RingResult τ) :=
  match q.front with
  | none => some (q, .element none)
  | some value => (q.store q.head moved).pop.map fun q => (q, .element (some value))

/-- `push_value`. -/
def tryPush (value : τ) (fails : Option τ) : Option (LocalRingQueue τ × RingResult τ) :=
  match q.preparePush with
  | none => none
  | some (q, none) => some (q, .pushed false)
  | some (q, some slot) =>
    match fails with
    | some left => some ((q.store slot left).cancelPush, .threw)
    | none => (q.store slot value).commitPush.map fun q => (q, .pushed true)

def step : RingAction τ → Option (LocalRingQueue τ × RingResult τ)
  | .tryPush value fails => q.tryPush value fails
  | .preparePush => q.preparePush.map fun (q, slot) => (q, .slot slot.isSome)
  | .assign value => if q.prepared then some (q.store q.handed value, .done) else none
  | .commitPush => q.commitPush.map fun q => (q, .done)
  | .cancelPush => some (q.cancelPush, .done)
  | .front => some (q, .element q.front)
  | .pop => q.pop.map fun q => (q, .done)
  | .tryPop moved => q.tryPop moved

def run : LocalRingQueue τ → List (RingAction τ) → Option (LocalRingQueue τ × List (RingResult τ))
  | q, [] => some (q, [])
  | q, action :: rest =>
    (q.step action).bind fun (next, result) => (run next rest).map fun (last, results) => (last, result :: results)

/-! ## What the ring holds -/

/-- The published values, the oldest one first. -/
def items : List τ := (List.range q.size).map fun offset => q.storage (q.slotIndex offset)

/-- The list that the ring stands for. -/
def view : BoundedQueue τ := { items := q.items, pending := if q.prepared then some (q.storage q.handed) else none }

/-- The prepared slot is the one behind the published ones, wherever the head has gone since. -/
structure Sound : Prop where
  head : q.head < q.capacity.value
  size : q.size ≤ q.capacity.value
  prepared : q.prepared = true → q.size < q.capacity.value ∧ q.handed = q.slotIndex q.size

variable {q} {value : τ}

@[simp] theorem length_items : q.items.length = q.size := by
  simp [items]

theorem Sound.slotIndex_lt (h : q.Sound) {offset : Nat} (hoffset : offset ≤ q.capacity.value) :
    q.slotIndex offset < q.capacity.value := by
  have hhead := h.head
  unfold slotIndex
  dsimp only
  split <;> omega

/-- Slots less than a round apart are different ones. -/
theorem Sound.slotIndex_ne (h : q.Sound) {left right : Nat} (hlt : left < right) (hright : right < q.capacity.value) :
    q.slotIndex left ≠ q.slotIndex right := by
  unfold slotIndex
  dsimp only
  split <;> split <;> omega

theorem Sound.slotIndex_zero (h : q.Sound) : q.slotIndex 0 = q.head := by
  have hhead := h.head
  unfold slotIndex
  rw [if_neg (by omega)]
  rfl

/-- The offsets from the next head. -/
theorem Sound.slotIndex_succ (h : q.Sound) {offset : Nat} {storage : Nat → τ} {size : Nat}
    (hoffset : offset < q.capacity.value) :
    slotIndex { q with storage, head := q.slotIndex 1, size } offset = q.slotIndex (offset + 1) := by
  have hhead := h.head
  unfold slotIndex
  dsimp only
  split <;> split <;> split <;> omega

/-! ## The operations -/

section

variable {prepared : Bool} {handed : Nat}

/-- What is assigned to the slot behind the published ones leaves these alone. -/
theorem Sound.items_store (h : q.Sound) (hsize : q.size < q.capacity.value) (value : τ) :
    items { q with storage := update q.storage (q.slotIndex q.size) value, prepared, handed } = q.items := by
  apply List.map_congr_left
  intro offset hoffset
  exact update_of_ne (h.slotIndex_ne (List.mem_range.mp hoffset) hsize) _ _

theorem items_commit (storage : Nat → τ) : items { q with storage, prepared, handed, size := q.size + 1 } =
    items { q with storage, prepared, handed } ++ [storage (q.slotIndex q.size)] := by
  unfold items
  rw [List.range_succ, List.map_append]
  rfl

/-- The slot of the front may be written to when the head goes on. -/
theorem Sound.items_cons (h : q.Sound) (hsize : q.size ≠ 0) (moved : τ) :
    q.items = q.storage q.head ::
      items { q with
        storage := update q.storage q.head moved, head := q.slotIndex 1, size := q.size - 1 } := by
  obtain ⟨size, hsucc⟩ := Nat.exists_eq_succ_of_ne_zero hsize
  have hle := h.size
  unfold items
  dsimp only
  rw [hsucc, Nat.succ_sub_one, List.range_succ_eq_map, List.map_cons, List.map_map, h.slotIndex_zero]
  congr 1
  apply List.map_congr_left
  intro offset hoffset
  have hlt := List.mem_range.mp hoffset
  have hne := h.slotIndex_ne (Nat.succ_pos offset) (by omega)
  rw [h.slotIndex_zero] at hne
  rw [h.slotIndex_succ (by omega), update_of_ne hne.symm]
  rfl

end

/-! ## Soundness -/

section

variable (h : q.Sound)
include h

theorem Sound.prepare (hroom : q.size ≠ q.capacity.value) :
    Sound { q with prepared := true, handed := q.slotIndex q.size } :=
  ⟨h.head, h.size, fun _ => ⟨lt_of_le_of_ne h.size hroom, rfl⟩⟩

theorem Sound.store (slot : Nat) (value : τ) : (q.store slot value).Sound := ⟨h.head, h.size, h.prepared⟩

theorem Sound.cancelPush : q.cancelPush.Sound := ⟨h.head, h.size, nofun⟩

theorem Sound.commit (hprepared : q.prepared = true) :
    Sound { q with prepared := false, size := q.size + 1 } := ⟨h.head, (h.prepared hprepared).1, nofun⟩

/-- The prepared slot stays where it is when the head goes on. -/
theorem Sound.next (hsize : q.size ≠ 0) : Sound { q with head := q.slotIndex 1, size := q.size - 1 } := by
  have hle := h.size
  refine ⟨h.slotIndex_lt (by omega), Nat.le_trans (Nat.sub_le _ _) hle, fun hprepared => ?_⟩
  obtain ⟨hlt, hhanded⟩ := h.prepared hprepared
  refine ⟨by dsimp only; omega, hhanded.trans ?_⟩
  rw [h.slotIndex_succ (by dsimp only; omega)]
  congr 1
  dsimp only
  omega

end

/-! ## Refinement -/

/-- What both sides see of a step. -/
def seen : LocalRingQueue τ × RingResult τ → BoundedQueue τ × RingResult τ := fun (q, result) => (q.view, result)

/-- The value that the next prepared slot holds before anything is assigned to it. -/
def found (q : LocalRingQueue τ) : τ := q.storage (q.slotIndex q.size)

theorem view_items_nil (hempty : q.size = 0) : q.view.items = [] :=
  List.length_eq_zero_iff.mp ((length_items (q := q)).trans hempty)

theorem Sound.tryPush_seen (h : q.Sound) (fails : Option τ) :
    (q.tryPush value fails).map seen = q.view.step q.capacity.value q.found (.tryPush value fails) := by
  unfold tryPush preparePush BoundedQueue.step
  cases hprepared : q.prepared with
  | true => simp [view, hprepared]
  | false =>
    by_cases hfull : q.size = q.capacity.value
    · simp [view, seen, hprepared, hfull]
    · have hlt := lt_of_le_of_ne h.size hfull
      cases fails with
      | some left =>
        simp [view, seen, hprepared, hfull, LocalRingQueue.store, LocalRingQueue.cancelPush, h.items_store hlt]
      | none =>
        simp [view, seen, hprepared, hfull, LocalRingQueue.store, commitPush, items_commit, h.items_store hlt]

/-- **A step of the ring is the step of the list.** -/
theorem Sound.step_seen (h : q.Sound) (action : RingAction τ) :
    (q.step action).map seen = q.view.step q.capacity.value q.found action := by
  cases action with
  | tryPush value fails => exact h.tryPush_seen fails
  | preparePush =>
    unfold step preparePush BoundedQueue.step
    cases hprepared : q.prepared with
    | true => simp [view, hprepared]
    | false =>
      by_cases hfull : q.size = q.capacity.value
      · simp [view, seen, hprepared, hfull]
      · simp only [hfull, view, hprepared, length_items]
        rfl
  | assign value =>
    unfold step BoundedQueue.step
    cases hprepared : q.prepared with
    | true =>
      obtain ⟨hlt, hhanded⟩ := h.prepared hprepared
      simp [view, seen, hprepared, LocalRingQueue.store, hhanded, h.items_store hlt]
    | false => simp [view, hprepared]
  | commitPush =>
    unfold step commitPush BoundedQueue.step
    cases hprepared : q.prepared with
    | true =>
      obtain ⟨-, hhanded⟩ := h.prepared hprepared
      simp [view, seen, hprepared, items_commit, hhanded]
      rfl
    | false => simp [view, hprepared]
  | cancelPush => rfl
  | front =>
    unfold step front BoundedQueue.step
    by_cases hempty : q.size = 0
    · simp [seen, hempty, view_items_nil hempty]
    · have hcons : q.view.items = _ := h.items_cons hempty (q.storage q.head)
      simp [seen, hempty, hcons]
  | pop =>
    unfold step pop BoundedQueue.step
    by_cases hempty : q.size = 0
    · simp [hempty, view_items_nil hempty]
    · have hcons := h.items_cons hempty (q.storage q.head)
      rw [update_eq_self] at hcons
      simp only [hempty, view, hcons]
      rfl
  | tryPop moved =>
    unfold step tryPop front BoundedQueue.step
    by_cases hempty : q.size = 0
    · simp [seen, hempty, view_items_nil hempty]
    · -- the prepared slot is not the one of the front
      have hpending : (if q.prepared then some (update q.storage q.head moved q.handed) else none) =
          if q.prepared then some (q.storage q.handed) else none := by
        split
        · rename_i hprepared
          obtain ⟨hlt, hhanded⟩ := h.prepared hprepared
          have hne := h.slotIndex_ne (Nat.pos_of_ne_zero hempty) hlt
          rw [h.slotIndex_zero, ← hhanded] at hne
          rw [update_of_ne hne.symm]
        · rfl
      have hview : view { q with
          storage := update q.storage q.head moved, head := q.slotIndex 1, size := q.size - 1 } =
          ⟨items { q with
            storage := update q.storage q.head moved, head := q.slotIndex 1, size := q.size - 1 },
            q.view.pending⟩ := congrArg (BoundedQueue.mk _) hpending
      have hpop : (q.store q.head moved).pop = some { q with
          storage := update q.storage q.head moved, head := q.slotIndex 1, size := q.size - 1 } :=
        if_neg hempty
      simp only [hpop, if_neg hempty, view, h.items_cons hempty moved]
      exact congrArg (fun next => some (next, RingResult.element (some (q.storage q.head)))) hview

theorem preparePush_cases (q : LocalRingQueue τ) :
    q.preparePush = none ∨ q.size = q.capacity.value ∧ q.preparePush = some (q, none) ∨
      (q.size ≠ q.capacity.value ∧ q.prepared = false) ∧ q.preparePush =
        some ({ q with prepared := true, handed := q.slotIndex q.size }, some (q.slotIndex q.size)) := by
  unfold preparePush
  split_ifs with hprepared hfull
  · exact .inl rfl
  · exact .inr (.inl ⟨hfull, rfl⟩)
  · exact .inr (.inr ⟨⟨hfull, Bool.eq_false_iff.mpr hprepared⟩, rfl⟩)

theorem Sound.step (h : q.Sound) {action : RingAction τ} {next : LocalRingQueue τ} {result : RingResult τ}
    (hstep : q.step action = some (next, result)) : next.Sound ∧ next.capacity = q.capacity := by
  unfold LocalRingQueue.step at hstep
  cases action with
  | tryPush value fails =>
    dsimp only [tryPush] at hstep
    rcases q.preparePush_cases with hprepare | ⟨-, hprepare⟩ | ⟨⟨hroom, -⟩, hprepare⟩
    all_goals rw [hprepare] at hstep
    · cases hstep
    · cases hstep
      exact ⟨h, rfl⟩
    · cases fails with
      | some left =>
        cases hstep
        exact ⟨((h.prepare hroom).store _ left).cancelPush, rfl⟩
      | none =>
        cases hstep
        exact ⟨((h.prepare hroom).store _ value).commit rfl, rfl⟩
  | preparePush =>
    rcases q.preparePush_cases with hprepare | ⟨-, hprepare⟩ | ⟨⟨hroom, -⟩, hprepare⟩
    all_goals rw [hprepare] at hstep
    · cases hstep
    · cases hstep
      exact ⟨h, rfl⟩
    · cases hstep
      exact ⟨h.prepare hroom, rfl⟩
  | assign value =>
    dsimp only at hstep
    split at hstep <;> cases hstep
    exact ⟨h.store _ value, rfl⟩
  | commitPush =>
    dsimp only [commitPush] at hstep
    split at hstep <;> cases hstep
    rename_i hprepared
    exact ⟨h.commit hprepared, rfl⟩
  | cancelPush =>
    cases hstep
    exact ⟨h.cancelPush, rfl⟩
  | front =>
    cases hstep
    exact ⟨h, rfl⟩
  | pop =>
    dsimp only [pop] at hstep
    split at hstep <;> cases hstep
    rename_i hempty
    exact ⟨h.next hempty, rfl⟩
  | tryPop moved =>
    dsimp only [tryPop, front] at hstep
    by_cases hempty : q.size = 0
    · rw [if_pos hempty] at hstep
      cases hstep
      exact ⟨h, rfl⟩
    · have hpop : (q.store q.head moved).pop = some _ := if_neg hempty
      rw [if_neg hempty] at hstep
      rw [hpop] at hstep
      cases hstep
      exact ⟨(h.store q.head moved).next hempty, rfl⟩

/-- Every run of the ring is a run of the list. -/
theorem Sound.run (h : q.Sound) (actions : List (RingAction τ)) :
    (∃ found : List τ, found.length = actions.length ∧
      (q.run actions).map (fun (last, results) => (last.view, results)) =
        q.view.run q.capacity.value (actions.zip found)) ∧
    ∀ last results, q.run actions = some (last, results) → last.Sound ∧ last.capacity = q.capacity := by
  induction actions generalizing q with
  | nil =>
    refine ⟨⟨[], rfl, rfl⟩, fun last results hrun => ?_⟩
    cases hrun
    exact ⟨h, rfl⟩
  | cons action rest ih =>
    have hseen := h.step_seen action
    cases hstep : q.step action with
    | none =>
      rw [hstep] at hseen
      refine ⟨⟨q.found :: rest.map fun _ => q.found, by simp, ?_⟩, fun last results hrun => ?_⟩
      · rw [LocalRingQueue.run, hstep, List.zip_cons_cons, BoundedQueue.run, ← hseen]
        rfl
      · rw [LocalRingQueue.run, hstep] at hrun
        cases hrun
    | some outcome =>
      obtain ⟨next, result⟩ := outcome
      rw [hstep] at hseen
      obtain ⟨hsound, hcapacity⟩ := h.step hstep
      obtain ⟨⟨found, hlength, hrest⟩, hall⟩ := ih hsound
      refine ⟨⟨q.found :: found, by simp [hlength], ?_⟩, fun last results hrun => ?_⟩
      · rw [LocalRingQueue.run, hstep, List.zip_cons_cons, BoundedQueue.run, ← hseen]
        show Option.map _ ((next.run rest).map _) = (BoundedQueue.run _ next.view _).map _
        rw [← hcapacity, ← hrest, Option.map_map, Option.map_map]
        rfl
      · rw [LocalRingQueue.run, hstep] at hrun
        obtain ⟨⟨last', results'⟩, hlast, heq⟩ := Option.map_eq_some_iff.mp hrun
        cases heq
        obtain ⟨hlastSound, hlastCapacity⟩ := hall _ _ hlast
        exact ⟨hlastSound, hlastCapacity.trans hcapacity⟩

/-- The queue as it is constructed; every slot holds a value from the start. -/
def construct (capacity : RingCapacity) (storage : Nat → τ) : LocalRingQueue τ := { capacity, storage }

theorem construct_sound (capacity : RingCapacity) (storage : Nat → τ) : (construct capacity storage).Sound :=
  ⟨capacity.positive, Nat.zero_le _, nofun⟩

/-- What was published, and where. -/
structure Unchanged (q next : LocalRingQueue τ) : Prop where
  items : next.items = q.items
  head : next.head = q.head
  size : next.size = q.size

/-- **The ring refines the bounded queue.** Over any operations: it does and answers what the list does, and stops
where the list stops; `prepare_push` gives no slot exactly when the queue is full; what is assigned to a prepared slot,
a cancelled push and an assignment that throws leave what is published as it was; and every index is one of a slot. -/
theorem local_ring_queue (capacity : RingCapacity) (storage : Nat → τ) (actions : List (RingAction τ)) :
    (∃ found : List τ, found.length = actions.length ∧
      ((construct capacity storage).run actions).map (fun (last, results) => (last.view, results)) =
        BoundedQueue.run capacity.value {} (actions.zip found)) ∧
    ∀ q results, (construct capacity storage).run actions = some (q, results) →
      (q.items.length ≤ capacity.value ∧ q.head < capacity.value ∧ (q.prepared = true → q.handed < capacity.value) ∧
        ∀ offset, offset ≤ capacity.value → q.slotIndex offset < capacity.value) ∧
      (∀ next handed, q.step .preparePush = some (next, .slot handed) →
        q.Unchanged next ∧ (handed = false ↔ q.items.length = capacity.value)) ∧
      (∀ value next result, q.step (.assign value) = some (next, result) → q.Unchanged next) ∧
      q.Unchanged q.cancelPush ∧
      ∀ value fails next, q.step (.tryPush value fails) = some (next, .threw) →
        q.Unchanged next ∧ next.prepared = q.prepared := by
  obtain ⟨hruns, hsound⟩ := (construct_sound capacity storage).run actions
  refine ⟨hruns, fun q results hrun => ?_⟩
  obtain ⟨h, hcapacity⟩ := hsound q results hrun
  obtain rfl : q.capacity = capacity := hcapacity
  refine ⟨⟨?_, h.head, fun hprepared => ?_, fun offset => h.slotIndex_lt⟩, ?_, ?_, ⟨rfl, rfl, rfl⟩, ?_⟩
  · rw [length_items]
    exact h.size
  · rw [(h.prepared hprepared).2]
    exact h.slotIndex_lt h.size
  · intro next handed hstep
    rw [length_items]
    unfold LocalRingQueue.step at hstep
    rcases q.preparePush_cases with hprepare | ⟨hfull, hprepare⟩ | ⟨⟨hroom, -⟩, hprepare⟩
    all_goals
      rw [hprepare] at hstep
      cases hstep
    · exact ⟨⟨rfl, rfl, rfl⟩, iff_of_true rfl hfull⟩
    · exact ⟨⟨rfl, rfl, rfl⟩, iff_of_false nofun hroom⟩
  · intro value next result hstep
    unfold LocalRingQueue.step at hstep
    dsimp only at hstep
    split at hstep <;> cases hstep
    rename_i hprepared
    obtain ⟨hlt, hhanded⟩ := h.prepared hprepared
    refine ⟨?_, rfl, rfl⟩
    rw [hhanded]
    exact h.items_store hlt value
  · intro value fails next hstep
    unfold LocalRingQueue.step at hstep
    dsimp only [tryPush] at hstep
    rcases q.preparePush_cases with hprepare | ⟨hfull, hprepare⟩ | ⟨⟨hroom, hfree⟩, hprepare⟩
    all_goals rw [hprepare] at hstep
    · cases hstep
    · cases hstep
    · cases fails with
      | some left =>
        cases hstep
        exact ⟨⟨h.items_store (lt_of_le_of_ne h.size hroom) left, rfl, rfl⟩, hfree.symm⟩
      | none => cases hstep

end LocalRingQueue

end Ruvia.Core
