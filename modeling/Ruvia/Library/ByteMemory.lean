import Ruvia.Library.ByteString

/-!
# `Library.ByteMemory` — runs of bytes in one memory

A memory, and the runs of bytes that are loaded from it and stored to it. A transformation that works through blocks,
reading each block and writing its image elsewhere in the same memory, has the effect of one that reads all of them
first, when no block is overwritten before its turn (`foldl_blocks`).
-/

namespace Library

/-- A memory by its addresses. -/
abbrev ByteMemory := Nat → UInt8

namespace ByteMemory

def load (mem : ByteMemory) (start count : Nat) : Bytes := (List.range count).map fun i => mem (start + i)

def store (mem : ByteMemory) (start : Nat) (bytes : Bytes) : ByteMemory :=
  fun a => if start ≤ a then (bytes[a - start]?).getD (mem a) else mem a

/-- Two runs have no address in common. -/
def Apart (start count start' count' : Nat) : Prop := start + count ≤ start' ∨ start' + count' ≤ start

section

variable {mem mem' : ByteMemory} {start count start' count' a : Nat} {bytes : Bytes}

@[simp] theorem length_load : (mem.load start count).length = count := by
  simp [load]

@[simp] theorem load_zero : mem.load start 0 = [] := rfl

theorem getElem?_load {i : Nat} (hi : i < count) : (mem.load start count)[i]? = some (mem (start + i)) := by
  simp [load, hi]

theorem load_add (m n : Nat) : mem.load start (m + n) = mem.load start m ++ mem.load (start + m) n := by
  simp [load, List.range_add, Nat.add_assoc]

theorem load_succ (n : Nat) : mem.load start (n + 1) = mem start :: mem.load (start + 1) n := by
  rw [Nat.add_comm, load_add]
  rfl

theorem load_congr (h : ∀ i, i < count → mem (start + i) = mem' (start + i)) :
    mem.load start count = mem'.load start count := by
  apply List.map_congr_left
  intro i hi
  exact h i (List.mem_range.mp hi)

theorem drop_load (n : Nat) : (mem.load start count).drop n = mem.load (start + n) (count - n) := by
  rcases Nat.le_total n count with hle | hle
  · obtain ⟨m, rfl⟩ := Nat.exists_eq_add_of_le hle
    rw [load_add, Nat.add_sub_cancel_left, List.drop_left' length_load]
  · rw [List.drop_of_length_le (length_load.le.trans hle), Nat.sub_eq_zero_of_le hle, load_zero]

theorem take_load {n : Nat} (h : n ≤ count) : (mem.load start count).take n = mem.load start n := by
  obtain ⟨m, rfl⟩ := Nat.exists_eq_add_of_le h
  rw [load_add, List.take_left' length_load]

theorem store_outside (h : a < start ∨ start + bytes.length ≤ a) : mem.store start bytes a = mem a := by
  unfold store
  split
  · have hlen : bytes.length ≤ a - start := by omega
    rw [List.getElem?_eq_none hlen]
    rfl
  · rfl

theorem load_store_apart (h : Apart start count start' bytes.length) :
    (mem.store start' bytes).load start count = mem.load start count := by
  apply load_congr
  intro i hi
  apply store_outside
  unfold Apart at h
  omega

theorem load_store : (mem.store start bytes).load start bytes.length = bytes := by
  apply List.ext_getElem?
  intro i
  rcases Nat.lt_or_ge i bytes.length with hi | hi
  · rw [getElem?_load hi, store, if_pos (Nat.le_add_right _ _), Nat.add_sub_cancel_left,
      List.getElem?_eq_getElem hi]
    rfl
  · rw [List.getElem?_eq_none hi, List.getElem?_eq_none (length_load.le.trans hi)]

end

/-! ## Blocks -/

section

variable {ι : Type*} (source target : ι → Nat) (size width : ι → Nat) (image : ι → Bytes → Bytes)

/-- One block is read, and its image is written. -/
def moveBlock (mem : ByteMemory) (i : ι) : ByteMemory :=
  mem.store (target i) (image i (mem.load (source i) (size i)))

variable {source target size width image} {order : List ι} {mem : ByteMemory}

/-- **Blocks that are moved one after the other**: none is overwritten before its turn, and no image behind it. -/
theorem foldl_blocks (hwidth : ∀ i ∈ order, ∀ bytes : Bytes, bytes.length = size i → (image i bytes).length = width i)
    (horder : order.Pairwise fun i j =>
      Apart (source j) (size j) (target i) (width i) ∧ Apart (target i) (width i) (target j) (width j)) :
    (∀ i ∈ order, (order.foldl (moveBlock source target size image) mem).load (target i) (width i) =
      image i (mem.load (source i) (size i))) ∧
    ∀ a, (∀ i ∈ order, a < target i ∨ target i + width i ≤ a) →
      order.foldl (moveBlock source target size image) mem a = mem a := by
  induction order generalizing mem with
  | nil => exact ⟨fun _ hi => absurd hi List.not_mem_nil, fun _ _ => rfl⟩
  | cons i rest ih =>
    obtain ⟨hfirst, hrest⟩ := List.pairwise_cons.mp horder
    obtain ⟨hmoved, hframe⟩ := @ih (moveBlock source target size image mem i)
      (fun j hj => hwidth j (List.mem_cons_of_mem i hj)) hrest
    have hlength : (image i (mem.load (source i) (size i))).length = width i :=
      hwidth i List.mem_cons_self _ length_load
    rw [List.foldl_cons]
    constructor
    · intro j hj
      rcases List.mem_cons.mp hj with rfl | hj
      · -- the image of this block is not written over by the later ones
        have hkept : ∀ k, k < width j →
            rest.foldl (moveBlock source target size image) (moveBlock source target size image mem j) (target j + k) =
              moveBlock source target size image mem j (target j + k) := by
          intro k hk
          apply hframe
          intro i hi
          have hapart := (hfirst i hi).2
          unfold Apart at hapart
          omega
        rw [load_congr hkept, moveBlock, ← hlength, load_store]
      · rw [hmoved j hj, moveBlock, load_store_apart (hlength ▸ (hfirst j hj).1)]
    · intro a ha
      rw [hframe a fun j hj => ha j (List.mem_cons_of_mem i hj)]
      apply store_outside
      rw [hlength]
      exact ha i List.mem_cons_self

end

end ByteMemory

end Library
