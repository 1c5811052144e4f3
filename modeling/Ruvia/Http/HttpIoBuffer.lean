import Ruvia.Library.ByteMemory

/-!
# `Http.HttpIoBuffer` — the readable window of a transport buffer

`http_io_buffer` in the memory that it shares with its callers, against the list of its readable bytes (`ByteQueue`).
What the allocator answers and what an overlapping `memcpy` would leave are inputs of a call (`IoSupply`).
-/

namespace Ruvia.Http

open Library ByteMemory

/-- `max_io_buffer_bytes`. -/
def maxIoBufferBytes : Nat := 2 ^ 63 - 1

/-- A `std::string_view` or a `std::span`. -/
structure MemoryView where
  address : Nat := 0
  length : Nat := 0

namespace MemoryView

def bytes (view : MemoryView) (memory : ByteMemory) : Bytes := memory.load view.address view.length

def Outside (view : MemoryView) (start count : Nat) : Prop := Apart start count view.address view.length

instance (view : MemoryView) (start count : Nat) : Decidable (view.Outside start count) :=
  inferInstanceAs (Decidable (_ ∨ _))

end MemoryView

def httpTextOverlaps (left right : MemoryView) : Bool :=
  if left.length = 0 ∨ right.length = 0 then false
  else if right.address ≤ left.address then left.address - right.address < right.length
  else right.address - left.address < left.length

structure IoSupply where
  allocate : Nat → Option Nat
  overlapped : ByteMemory

namespace IoSupply

def memcpy (supply : IoSupply) (memory : ByteMemory) (target : Nat) (source : MemoryView) : ByteMemory :=
  if source.Outside target source.length then memory.store target (source.bytes memory) else supply.overlapped

/-- The new storage of `reallocate`. -/
def storage (supply : IoSupply) (capacity : Nat) : Option Nat :=
  if capacity = 0 then some 0 else supply.allocate capacity

end IoSupply

inductive IoAction where
  | append (bytes : MemoryView)
  | prepare (bytes : Nat)
  | prepareSpare
  | commit (bytes : Nat)
  | consume (bytes : Nat)
  | reserve (bytes : Nat)
  | shrinkTo (bytes : Nat)
  | clear
  | clearRetainingSmall (retained : Nat)
  /-- Anything else that runs; it may write wherever the readable bytes are not. -/
  | others (memory : ByteMemory)

/-- What the call reads. -/
def IoAction.source : IoAction → MemoryView
  | .append bytes => bytes
  | _ => {}

inductive IoResult where
  | done
  | threw
  | space (bytes : MemoryView)

/-! ## The list of bytes -/

/-- The readable bytes, with the writable span that the caller still holds. -/
structure ByteQueue where
  bytes : Bytes := []
  space : Option MemoryView := none

/-- What a call with this result makes of the list; `writable` is where a caller that holds no span commits from. -/
def ByteQueue.step (q : ByteQueue) (memory : ByteMemory) (writable : Nat) : IoAction → IoResult → ByteQueue
  | _, .threw => q
  | _, .space bytes => { q with space := some bytes }
  | .append bytes, .done => { bytes := q.bytes ++ bytes.bytes memory }
  | .commit bytes, .done =>
    { bytes := q.bytes ++ memory.load ((q.space.map MemoryView.address).getD writable) bytes
      space := q.space.map fun held => ⟨held.address + bytes, held.length - bytes⟩ }
  | .consume bytes, .done =>
    { bytes := q.bytes.drop bytes, space := if bytes < q.bytes.length then q.space else none }
  | .clear, .done | .clearRetainingSmall _, .done => {}
  | .others _, .done => q
  | _, .done => { q with space := none }

/-! ## The buffer -/

structure HttpIoBuffer where
  memory : ByteMemory
  storage : Nat := 0
  capacity : Nat := 0
  beginAt : Nat := 0
  endAt : Nat := 0

namespace HttpIoBuffer

/-! An operation that can throw also says whether it returned. -/

section

variable (b : HttpIoBuffer) (supply : IoSupply)

def size : Nat := b.endAt - b.beginAt

def view : MemoryView := ⟨b.storage + b.beginAt, b.size⟩

def readable : Bytes := b.view.bytes b.memory

def clear : HttpIoBuffer := { b with beginAt := 0, endAt := 0 }

def release : HttpIoBuffer := { memory := b.memory }

def reallocate (capacity : Nat) (tail : MemoryView) : HttpIoBuffer × Bool :=
  match supply.storage capacity with
  | none => (b, false)
  | some storage =>
    let memory := supply.memcpy b.memory storage b.view
    let memory := supply.memcpy memory (storage + b.size) tail
    ({ memory, storage, capacity, beginAt := 0, endAt := b.size + tail.length }, true)

/-- `memmove` allows the two places to overlap. -/
def moveWindowToFront : HttpIoBuffer :=
  if b.beginAt = 0 then b
  else { b with memory := b.memory.store b.storage b.readable, beginAt := 0, endAt := b.size }

def roomCapacity (bytes : Nat) : Option Nat :=
  if maxIoBufferBytes - b.size < bytes then none
  else if bytes ≤ b.capacity - b.size ∧ b.size ≤ b.beginAt then some b.capacity
  else
    let doubled := if maxIoBufferBytes / 2 < b.capacity then maxIoBufferBytes else b.capacity * 2
    some (max (b.size + bytes) doubled)

def makeRoom (bytes : Nat) : HttpIoBuffer × Bool :=
  match b.roomCapacity bytes with
  | none => (b, false)
  | some capacity =>
    if b.capacity < capacity then b.reallocate supply capacity {} else (b.moveWindowToFront, true)

def append (bytes : MemoryView) : HttpIoBuffer × Bool :=
  if bytes.length = 0 then (b, true)
  else if bytes.length ≤ b.capacity - b.endAt then
    ({ b with
        memory := b.memory.store (b.storage + b.endAt) (bytes.bytes b.memory)
        endAt := b.endAt + bytes.length }, true)
  else if httpTextOverlaps bytes ⟨b.storage, b.capacity⟩ then
    match b.roomCapacity bytes.length with
    | none => (b, false)
    | some capacity => b.reallocate supply capacity bytes
  else
    match b.makeRoom supply bytes.length with
    | (b, false) => (b, false)
    | (b, true) =>
      ({ b with
          memory := supply.memcpy b.memory (b.storage + b.endAt) bytes
          endAt := b.endAt + bytes.length }, true)

def prepare (bytes : Nat) : HttpIoBuffer × IoResult :=
  match if b.capacity - b.endAt < bytes then b.makeRoom supply bytes else (b, true) with
  | (b, false) => (b, .threw)
  | (b, true) => (b, .space ⟨b.storage + b.endAt, bytes⟩)

def prepareSpare : HttpIoBuffer × IoResult :=
  let b := b.moveWindowToFront
  (b, .space ⟨b.storage + b.endAt, b.capacity - b.endAt⟩)

def commit (bytes : Nat) : HttpIoBuffer × Bool :=
  if b.capacity - b.endAt < bytes then (b, false) else ({ b with endAt := b.endAt + bytes }, true)

def consume (bytes : Nat) : HttpIoBuffer :=
  let b := { b with beginAt := b.beginAt + min bytes b.size }
  if b.beginAt = b.endAt then b.clear else b

def reserve (bytes : Nat) : HttpIoBuffer × Bool :=
  if maxIoBufferBytes < bytes then (b, false)
  else if b.capacity < bytes then b.reallocate supply bytes {} else (b, true)

def shrinkTo (bytes : Nat) : HttpIoBuffer × Bool :=
  let target := max b.size bytes
  if target < b.capacity then b.reallocate supply target {} else (b, true)

def clearRetainingSmall (retained : Nat) : HttpIoBuffer :=
  let b := b.clear
  if retained < b.capacity then b.release else b

/-- The readable bytes stay as they are. -/
def others (memory : ByteMemory) : HttpIoBuffer := { b with memory := memory.store b.view.address b.readable }

def returned : HttpIoBuffer × Bool → HttpIoBuffer × IoResult
  | (b, true) => (b, .done)
  | (b, false) => (b, .threw)

def step : IoAction → HttpIoBuffer × IoResult
  | .append bytes => returned (b.append supply bytes)
  | .prepare bytes => b.prepare supply bytes
  | .prepareSpare => b.prepareSpare
  | .commit bytes => returned (b.commit bytes)
  | .consume bytes => (b.consume bytes, .done)
  | .reserve bytes => returned (b.reserve supply bytes)
  | .shrinkTo bytes => returned (b.shrinkTo supply bytes)
  | .clear => (b.clear, .done)
  | .clearRetainingSmall retained => (b.clearRetainingSmall retained, .done)
  | .others memory => (b.others memory, .done)

end

/-- The allocator hands out no memory that is in use: neither the storage nor what the call reads. -/
def FreshFrom (b : HttpIoBuffer) (supply : IoSupply) (source : MemoryView) : Prop :=
  ∀ size a, supply.allocate size = some a → Apart a size b.storage b.capacity ∧ source.Outside a size

end HttpIoBuffer

/-- The states of a run, with the list after the same calls. -/
inductive IoRun : HttpIoBuffer → ByteQueue → Prop where
  | start (memory : ByteMemory) : IoRun { memory } {}
  | step {b : HttpIoBuffer} {q : ByteQueue} (supply : IoSupply) (action : IoAction) :
    IoRun b q → b.FreshFrom supply action.source →
      IoRun (b.step supply action).1 (q.step b.memory (b.storage + b.endAt) action (b.step supply action).2)

/-! ## Every operation keeps the window -/

/-- Bytes stored behind a run follow it. -/
theorem load_store_behind (mem : ByteMemory) (start count : Nat) (bytes : Bytes) :
    (mem.store (start + count) bytes).load start (count + bytes.length) = mem.load start count ++ bytes := by
  rw [load_add, load_store, load_store_apart (Or.inl (Nat.le_refl _))]

theorem outside_of_not_overlaps {left right : MemoryView} (h : httpTextOverlaps left right = false)
    (hleft : left.length ≠ 0) (hright : 0 < right.length) : left.Outside right.address right.length := by
  unfold httpTextOverlaps at h
  rw [if_neg (by omega)] at h
  unfold MemoryView.Outside Apart
  split at h <;> simp only [decide_eq_false_iff_not] at h <;> omega

namespace HttpIoBuffer

/-- The buffer stands for the list. -/
structure Represents (b : HttpIoBuffer) (q : ByteQueue) : Prop where
  ordered : b.beginAt ≤ b.endAt
  stored : b.endAt ≤ b.capacity
  addressable : b.capacity ≤ maxIoBufferBytes
  bytes_eq : b.readable = q.bytes
  space : ∀ held, q.space = some held → held.address = b.storage + b.endAt ∧ held.length ≤ b.capacity - b.endAt

/-- The window of `b` followed by `tail` is at the front of `next`, and nothing outside its storage was written. -/
structure Moved (b : HttpIoBuffer) (tail : Bytes) (next : HttpIoBuffer) : Prop where
  front : next.beginAt = 0
  endAt_eq : next.endAt = b.size + tail.length
  stored : next.endAt ≤ next.capacity
  addressable : next.capacity ≤ maxIoBufferBytes
  readable_eq : next.readable = b.readable ++ tail
  frame : ∀ view : MemoryView, view.Outside next.storage next.capacity → view.bytes next.memory = view.bytes b.memory

/-- A call threw and left the buffer as it was, or what it returned is as said. -/
def Returns (b : HttpIoBuffer) (r : HttpIoBuffer × Bool) (said : HttpIoBuffer → Prop) : Prop :=
  r = (b, false) ∨ ∃ next, r = (next, true) ∧ said next

variable {b next : HttpIoBuffer} {q : ByteQueue} {supply : IoSupply} {source : MemoryView}

theorem length_readable : b.readable.length = b.size := length_load

theorem Moved.represents {tail : Bytes} (h : b.Moved tail next) : next.Represents { bytes := b.readable ++ tail } :=
  ⟨by rw [h.front]; exact Nat.zero_le _, h.stored, h.addressable, h.readable_eq, nofun⟩

section

variable (h : b.Represents q)
include h

theorem Represents.forget : b.Represents { bytes := q.bytes } := { h with space := nofun }

theorem Represents.moved (hmoved : b.Moved [] next) : next.Represents { bytes := q.bytes } := by
  have := hmoved.represents
  rwa [List.append_nil, h.bytes_eq] at this

/-- The copy into new storage, of the window and then of what the call reads. -/
theorem Represents.reallocate {capacity : Nat} {tail : MemoryView} (hfresh : b.FreshFrom supply source)
    (htail : tail = source ∨ tail = {}) (hfits : b.size + tail.length ≤ capacity)
    (hmax : capacity ≤ maxIoBufferBytes) : b.Returns (b.reallocate supply capacity tail) fun next =>
      next.capacity = capacity ∧ b.Moved (tail.bytes b.memory) next ∧ source.Outside next.storage capacity := by
  unfold HttpIoBuffer.reallocate
  cases hstorage : supply.storage capacity with
  | none => exact .inl rfl
  | some storage =>
    obtain ⟨hold, hsource⟩ : Apart storage capacity b.storage b.capacity ∧ source.Outside storage capacity := by
      unfold IoSupply.storage at hstorage
      split at hstorage
      · cases hstorage
        unfold MemoryView.Outside Apart
        omega
      · exact hfresh _ _ hstorage
    have hout : tail.Outside storage capacity := by
      rcases htail with rfl | rfl
      · exact hsource
      · exact .inr (Nat.zero_le _)
    have hstored := h.stored
    have hsize : b.size = b.endAt - b.beginAt := rfl
    unfold Apart at hold
    unfold MemoryView.Outside Apart at hout
    have hlive : b.view.Outside storage b.view.length := by
      unfold MemoryView.Outside Apart view
      dsimp only
      omega
    have hbehind : tail.Outside (storage + b.size) tail.length := by
      unfold MemoryView.Outside Apart
      omega
    have hwindow : (b.view.bytes b.memory).length = b.size := length_load
    have hlength : (tail.bytes b.memory).length = tail.length := length_load
    have hread : tail.bytes (b.memory.store storage (b.view.bytes b.memory)) = tail.bytes b.memory := by
      apply load_store_apart
      rw [hwindow]
      unfold Apart
      omega
    dsimp only
    rw [IoSupply.memcpy, IoSupply.memcpy, if_pos hlive, if_pos hbehind, hread]
    refine .inr ⟨_, rfl, rfl, ⟨rfl, hlength ▸ rfl, hfits, hmax, ?_, fun view hview => ?_⟩, hsource⟩
    · have hfront : (b.memory.store storage b.readable).load storage b.size = b.readable := by
        rw [← length_readable, load_store]
      have := load_store_behind (b.memory.store storage b.readable) storage b.size (tail.bytes b.memory)
      rw [hlength, hfront] at this
      exact this
    · unfold MemoryView.Outside Apart at hview
      dsimp only at hview
      refine (load_store_apart ?_).trans (load_store_apart ?_)
      · rw [hlength]
        unfold Apart
        omega
      · unfold Apart
        omega

/-- The window moves down over the consumed bytes. -/
theorem Represents.moveWindowToFront : b.Moved [] b.moveWindowToFront ∧
    b.moveWindowToFront.storage = b.storage ∧ b.moveWindowToFront.capacity = b.capacity := by
  have hstored := h.stored
  have hsize : b.size = b.endAt - b.beginAt := rfl
  unfold HttpIoBuffer.moveWindowToFront
  split
  · rename_i hzero
    have hend : b.endAt = b.size + 0 := by omega
    exact ⟨⟨hzero, hend, hstored, h.addressable, (List.append_nil _).symm, fun _ _ => rfl⟩, rfl, rfl⟩
  · refine ⟨⟨rfl, rfl, by dsimp only; omega, h.addressable, ?_, fun view hview => ?_⟩, rfl, rfl⟩
    · have : (b.memory.store b.storage b.readable).load b.storage b.readable.length = b.readable := load_store
      rw [length_readable] at this
      rw [List.append_nil]
      exact this
    · apply load_store_apart
      rw [length_readable]
      unfold MemoryView.Outside Apart at hview
      unfold Apart
      dsimp only at hview
      omega

/-- The capacity asked for holds the window and the bytes, and compaction alone gives it when it is the old one. -/
theorem Represents.roomCapacity {bytes capacity : Nat} (hroom : b.roomCapacity bytes = some capacity) :
    b.size + bytes ≤ capacity ∧ capacity ≤ maxIoBufferBytes ∧
      (¬ b.capacity < capacity → b.size + bytes ≤ b.capacity) := by
  have hstored := h.stored
  have hmax := h.addressable
  have hsize : b.size = b.endAt - b.beginAt := rfl
  unfold HttpIoBuffer.roomCapacity at hroom
  split at hroom
  · cases hroom
  · split at hroom <;> cases hroom
    · omega
    · split <;> omega

/-- Room for `bytes` more, whatever the call reads being left where it is. -/
theorem Represents.makeRoom {bytes : Nat} (hfresh : b.FreshFrom supply source)
    (hsource : 0 < b.capacity → source.Outside b.storage b.capacity) (hbytes : 0 < bytes) :
    b.Returns (b.makeRoom supply bytes) fun next => b.Moved [] next ∧ next.endAt + bytes ≤ next.capacity ∧
      source.Outside next.storage next.capacity := by
  unfold HttpIoBuffer.makeRoom
  cases hroom : b.roomCapacity bytes with
  | none => exact .inl rfl
  | some capacity =>
    obtain ⟨hfits, hle, hkept⟩ := h.roomCapacity hroom
    dsimp only
    split
    · rcases h.reallocate hfresh (.inr rfl) (hfits.trans' (Nat.le_add_right _ _)) hle
        with hthrew | ⟨next, hnext, hcapacity, hmoved, hout⟩
      · exact .inl hthrew
      · rw [← hcapacity] at hfits hout
        exact .inr ⟨next, hnext, hmoved, hmoved.endAt_eq ▸ hfits, hout⟩
    · obtain ⟨hmoved, hstorage, hcapacity⟩ := h.moveWindowToFront
      rename_i hle
      have hfits := hkept hle
      refine .inr ⟨_, rfl, hmoved, ?_, ?_⟩
      · rw [hcapacity]
        exact hmoved.endAt_eq ▸ hfits
      · rw [hstorage, hcapacity]
        exact hsource (by omega)

/-- The bytes at the end of the window become readable. -/
theorem Represents.extend {bytes : Nat} (hroom : b.endAt + bytes ≤ b.capacity) {space : Option MemoryView}
    (hspace : ∀ held, space = some held →
      held.address = b.storage + (b.endAt + bytes) ∧ held.length ≤ b.capacity - (b.endAt + bytes)) :
    { b with endAt := b.endAt + bytes }.Represents
      { bytes := q.bytes ++ b.memory.load (b.storage + b.endAt) bytes, space } := by
  have hordered := h.ordered
  refine ⟨hordered.trans (Nat.le_add_right _ _), hroom, h.addressable, ?_, hspace⟩
  have hsize : b.endAt + bytes - b.beginAt = b.size + bytes := by
    unfold size
    omega
  have hend : b.storage + b.beginAt + b.size = b.storage + b.endAt := by
    omega
  change b.memory.load (b.storage + b.beginAt) (b.endAt + bytes - b.beginAt) = _
  rw [hsize, load_add, hend, ← h.bytes_eq]
  rfl

/-- Bytes written at the end of the window follow it. -/
theorem Represents.written (bytes : Bytes) (hroom : b.endAt + bytes.length ≤ b.capacity) :
    { b with memory := b.memory.store (b.storage + b.endAt) bytes, endAt := b.endAt + bytes.length }.Represents
      { bytes := q.bytes ++ bytes } := by
  have hkept : { b with memory := b.memory.store (b.storage + b.endAt) bytes }.Represents { bytes := q.bytes } := by
    refine { h.forget with bytes_eq := (load_store_apart ?_).trans h.bytes_eq }
    have := h.ordered
    unfold Apart view size
    dsimp only
    omega
  have := @Represents.extend _ _ hkept _ hroom none nofun
  rwa [load_store] at this

end

/-! ## A run -/

section

variable (h : b.Represents q)
include h

theorem Represents.append (hfresh : b.FreshFrom supply source) : b.Returns (b.append supply source)
    (·.Represents { bytes := q.bytes ++ source.bytes b.memory }) := by
  have hlength : (source.bytes b.memory).length = source.length := length_load
  unfold HttpIoBuffer.append
  split
  · rename_i hzero
    rw [MemoryView.bytes, hzero, load_zero, List.append_nil]
    exact .inr ⟨b, rfl, h.forget⟩
  · rename_i hne
    split
    · have hwritten := h.written (source.bytes b.memory) (by omega)
      rw [hlength] at hwritten
      exact .inr ⟨_, rfl, hwritten⟩
    · split
      · -- The source is copied before its storage is given back.
        cases hcapacity : b.roomCapacity source.length with
        | none => exact .inl rfl
        | some capacity =>
          obtain ⟨hfits, hle, _⟩ := h.roomCapacity hcapacity
          rcases h.reallocate hfresh (.inl rfl) hfits hle with hthrew | ⟨next, hnext, _, hmoved, _⟩
          · exact .inl hthrew
          · rw [← h.bytes_eq]
            exact .inr ⟨next, hnext, hmoved.represents⟩
      · rename_i hoverlaps
        rcases h.makeRoom hfresh (outside_of_not_overlaps (Bool.not_eq_true _ ▸ hoverlaps) hne)
          (Nat.pos_of_ne_zero hne) with hthrew | ⟨next, hnext, hmoved, hroom, hout⟩
        · rw [hthrew]
          exact .inl rfl
        · rw [hnext]
          have hbehind : source.Outside (next.storage + next.endAt) source.length := by
            unfold MemoryView.Outside Apart at hout ⊢
            omega
          have hwritten := (h.moved hmoved).written (source.bytes b.memory) (by omega)
          rw [hlength] at hwritten
          refine .inr ⟨_, rfl, ?_⟩
          rw [IoSupply.memcpy, if_pos hbehind, hmoved.frame source hout]
          exact hwritten

/-- The bytes committed are those in the span that the caller holds. -/
theorem Represents.commit (bytes : Nat) : b.Returns (b.commit bytes)
    (·.Represents (q.step b.memory (b.storage + b.endAt) (.commit bytes) .done)) := by
  unfold HttpIoBuffer.commit
  split
  · exact .inl rfl
  · have hstored := h.stored
    have hstart : (q.space.map MemoryView.address).getD (b.storage + b.endAt) = b.storage + b.endAt := by
      cases hheld : q.space with
      | none => rfl
      | some held => exact (h.space held hheld).1
    refine .inr ⟨_, rfl, ?_⟩
    unfold ByteQueue.step
    rw [hstart]
    apply h.extend (by omega)
    intro held hheld
    obtain ⟨before, hbefore, rfl⟩ := Option.map_eq_some_iff.mp hheld
    obtain ⟨haddress, hlength⟩ := h.space before hbefore
    dsimp only
    omega

theorem Represents.consume (bytes : Nat) : (b.consume bytes).Represents
    { bytes := q.bytes.drop bytes, space := if bytes < q.bytes.length then q.space else none } := by
  have hordered := h.ordered
  have hlength : q.bytes.length = b.endAt - b.beginAt := by rw [← h.bytes_eq, length_readable, size]
  unfold HttpIoBuffer.consume size
  dsimp only
  split
  · rw [List.drop_of_length_le (by omega), if_neg (by omega)]
    exact ⟨Nat.le_refl _, Nat.zero_le _, h.addressable, rfl, nofun⟩
  · have hmin : min bytes (b.endAt - b.beginAt) = bytes := by omega
    rw [hmin, if_pos (by omega), ← h.bytes_eq]
    refine ⟨by dsimp only; omega, h.stored, h.addressable, ?_, h.space⟩
    unfold readable MemoryView.bytes view size
    dsimp only
    rw [drop_load, Nat.add_assoc, Nat.sub_add_eq]

/-- A span behind the window and inside the storage. -/
theorem Represents.hand {bytes : Nat} (hfits : b.endAt + bytes ≤ b.capacity) :
    b.Represents { q with space := some ⟨b.storage + b.endAt, bytes⟩ } := by
  refine { h with space := fun held hheld => ?_ }
  cases hheld
  exact ⟨rfl, Nat.le_sub_of_add_le' hfits⟩

/-- A call that threw or did what it says. -/
theorem Represents.returned {next : ByteQueue} {r : HttpIoBuffer × Bool} {memory : ByteMemory} {writable : Nat}
    {action : IoAction} (hr : b.Returns r (·.Represents next)) (hnext : q.step memory writable action .done = next) :
    (returned r).1.Represents (q.step memory writable action (returned r).2) ∧
      ((returned r).2 = .threw → (returned r).1 = b) := by
  rcases hr with rfl | ⟨b', rfl, hb'⟩
  · exact ⟨by unfold ByteQueue.step; exact h, fun _ => rfl⟩
  · exact ⟨hnext ▸ hb', nofun⟩

/-- New storage for the window alone. -/
theorem Represents.resize {capacity : Nat} (hfresh : b.FreshFrom supply {}) (hfits : b.size ≤ capacity)
    (hmax : capacity ≤ maxIoBufferBytes) :
    b.Returns (b.reallocate supply capacity {}) (·.Represents { bytes := q.bytes }) := by
  rcases h.reallocate hfresh (.inl rfl) hfits hmax with hthrew | ⟨next, hnext, _, hmoved, _⟩
  · exact .inl hthrew
  · exact .inr ⟨next, hnext, h.moved hmoved⟩

/-- One call, whatever it is. -/
theorem Represents.step {action : IoAction} (hfresh : b.FreshFrom supply action.source) :
    (b.step supply action).1.Represents (q.step b.memory (b.storage + b.endAt) action (b.step supply action).2) ∧
      ((b.step supply action).2 = .threw → (b.step supply action).1 = b) := by
  have hstored := h.stored
  have hmax := h.addressable
  have hsize : b.size = b.endAt - b.beginAt := rfl
  have hempty : b.clear.Represents {} := ⟨Nat.le_refl _, Nat.zero_le _, hmax, rfl, nofun⟩
  cases action with
  | append bytes => exact h.returned (h.append hfresh) rfl
  | prepare bytes =>
    change (b.prepare supply bytes).1.Represents (q.step _ _ _ (b.prepare supply bytes).2) ∧
      ((b.prepare supply bytes).2 = _ → (b.prepare supply bytes).1 = _)
    unfold prepare
    by_cases hroom : b.capacity - b.endAt < bytes
    · rw [if_pos hroom]
      rcases h.makeRoom hfresh (fun _ => .inr (Nat.zero_le _)) (Nat.zero_lt_of_lt hroom)
        with hthrew | ⟨next, hnext, hmoved, hfits, _⟩
      · rw [hthrew]
        exact ⟨h, fun _ => rfl⟩
      · rw [hnext]
        exact ⟨(h.moved hmoved).hand hfits, nofun⟩
    · rw [if_neg hroom]
      exact ⟨h.hand (by omega), nofun⟩
  | prepareSpare =>
    have hmoved := h.moveWindowToFront.1
    exact ⟨(h.moved hmoved).hand (by have := hmoved.stored; omega), nofun⟩
  | commit bytes => exact h.returned (h.commit bytes) rfl
  | consume bytes => exact ⟨h.consume bytes, nofun⟩
  | reserve bytes =>
    refine h.returned ?_ rfl
    unfold reserve
    split
    · exact .inl rfl
    · split
      · exact h.resize hfresh (by omega) (by omega)
      · exact .inr ⟨b, rfl, h.forget⟩
  | shrinkTo bytes =>
    refine h.returned ?_ rfl
    unfold shrinkTo
    dsimp only
    split
    · exact h.resize hfresh (Nat.le_max_left _ _) (by omega)
    · exact .inr ⟨b, rfl, h.forget⟩
  | clear => exact ⟨hempty, nofun⟩
  | clearRetainingSmall retained =>
    refine ⟨?_, nofun⟩
    change (b.clearRetainingSmall retained).Represents {}
    unfold clearRetainingSmall
    dsimp only
    split
    · exact ⟨Nat.le_refl _, Nat.le_refl _, Nat.zero_le _, rfl, nofun⟩
    · exact hempty
  | others memory =>
    have hread : (memory.store b.view.address b.readable).load b.view.address b.readable.length = b.readable := load_store
    rw [length_readable] at hread
    exact ⟨{ h with bytes_eq := hread.trans h.bytes_eq }, nofun⟩

end

end HttpIoBuffer

/-- **The buffer is a queue of bytes.** Over any run of calls, whatever they read and whatever the rest of the program
writes between them, the readable bytes are those of the list, the span that a caller holds is the writable space, and
a call that throws changes nothing. -/
theorem http_io_buffer {b : HttpIoBuffer} {q : ByteQueue} (hrun : IoRun b q) :
    b.Represents q ∧ ∀ supply action, b.FreshFrom supply action.source →
      (b.step supply action).2 = .threw → (b.step supply action).1 = b := by
  have h : b.Represents q := by
    induction hrun with
    | start memory => exact ⟨Nat.le_refl _, Nat.le_refl _, Nat.zero_le _, rfl, nofun⟩
    | step supply action _ hfresh ih => exact (ih.step hfresh).1
  exact ⟨h, fun supply action hfresh => (h.step hfresh).2⟩

/-- A buffer without room for a copy of its own bytes. -/
theorem http_io_buffer_own_bytes : ∃ b : HttpIoBuffer, b.readable = [7, 7, 7, 7] := by
  let answers (a : Nat) : IoSupply := ⟨fun _ => some a, fun _ => 0⟩
  have hfirst := IoRun.step (answers 100) (.append ⟨5, 2⟩) (.start fun _ => 7) fun size a ha => by
    cases ha
    exact ⟨.inr (by decide), .inr (by decide)⟩
  have hrun := IoRun.step (answers 200) (.append ⟨100, 2⟩) hfirst fun size a ha => by
    cases ha
    exact ⟨.inr (by decide), .inr (by decide)⟩
  exact ⟨_, (http_io_buffer hrun).1.bytes_eq⟩

end Ruvia.Http
