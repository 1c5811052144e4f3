import Mathlib.Data.List.Nodup
import Mathlib.Data.List.Perm.Basic
import Mathlib.Data.List.ReduceOption
import Mathlib.Logic.Function.Basic

/-!
# `Library.SlotWalk` — walking over slots that change

Slots hold values, no value stands in two of them. While walks over the slots are under way, values are put into free
slots and cleared out of their slots, but never moved. A walk goes from slot to slot up to a bound that is set on the
way. It comes past each value that was there when it began and was not cleared since, and past no value twice
(`SlotWalk.Sound`). Removing a value by moving the last one into its place is for times without a walk (`swapRemove`).
-/

namespace Library

open Function

variable {α : Type*}

/-! ## Slots in a list -/

/-- What stands in a slot; there is nothing in slots beyond the list. -/
def slotOf (slots : List (Option α)) (n : Nat) : Option α := slots[n]?.join

/-- No value stands in two slots. -/
def Separate (slots : Nat → Option α) : Prop := ∀ ⦃m n : Nat⦄ ⦃a : α⦄, slots m = some a → slots n = some a → m = n

/-- The parts of a list around one of its places. -/
theorem exists_around {β : Type*} {l : List β} {b : β} {n : Nat} (h : l[n]? = some b) :
    ∃ front back, l = front ++ b :: back ∧ ∀ next, l.set n next = front ++ next :: back := by
  obtain ⟨hlt, hb⟩ := List.getElem?_eq_some_iff.mp h
  refine ⟨l.take n, l.drop (n + 1), ?_, fun next => List.set_eq_take_append_cons_drop.trans (if_pos hlt)⟩
  rw [← hb, List.getElem_cons_drop, List.take_append_drop]

section

variable {slots : List (Option α)} {slot : Option α} {a : α} {m n : Nat}

theorem slotOf_eq_some_iff : slotOf slots n = some a ↔ slots[n]? = some (some a) := by
  rw [slotOf, Option.join_eq_some_iff]

theorem slotOf_set (h : n < slots.length) (slot : Option α) :
    slotOf (slots.set n slot) = update (slotOf slots) n slot := by
  funext m
  rw [slotOf, List.getElem?_set]
  by_cases hm : n = m
  · subst hm
    rw [if_pos rfl, if_pos h, update_self]
    rfl
  · rw [if_neg hm, update_of_ne (Ne.symm hm)]
    rfl

theorem slotOf_concat (slots : List (Option α)) (slot : Option α) :
    slotOf (slots ++ [slot]) = update (slotOf slots) slots.length slot := by
  funext m
  rw [slotOf]
  rcases Nat.lt_trichotomy m slots.length with hm | rfl | hm
  · rw [List.getElem?_append_left hm, update_of_ne (Nat.ne_of_lt hm)]
    rfl
  · rw [List.getElem?_concat_length, update_self]
    rfl
  · rw [update_of_ne (Nat.ne_of_gt hm), slotOf, List.getElem?_eq_none (Nat.le_of_lt hm), List.getElem?_eq_none]
    rw [List.length_append]
    exact hm

theorem mem_reduceOption_of_slot (h : slotOf slots n = some a) : a ∈ slots.reduceOption :=
  List.reduceOption_mem_iff.mpr (List.mem_of_getElem? (slotOf_eq_some_iff.mp h))

theorem exists_slot (h : a ∈ slots.reduceOption) : ∃ n, slotOf slots n = some a := by
  obtain ⟨n, hn⟩ := List.mem_iff_getElem?.mp (List.reduceOption_mem_iff.mp h)
  exact ⟨n, slotOf_eq_some_iff.mpr hn⟩

/-- A value more in a free slot. -/
theorem reduceOption_put (h : slots[n]? = some none) :
    (slots.set n (some a)).reduceOption.Perm (a :: slots.reduceOption) := by
  obtain ⟨front, back, hslots, hset⟩ := exists_around h
  rw [hset, hslots, List.reduceOption_append, List.reduceOption_append, List.reduceOption_cons_of_some,
    List.reduceOption_cons_of_none]
  exact List.perm_middle

/-- A value less when its slot is cleared. -/
theorem reduceOption_clear (h : slots[n]? = some (some a)) :
    slots.reduceOption.Perm (a :: (slots.set n none).reduceOption) := by
  obtain ⟨front, back, hslots, hset⟩ := exists_around h
  rw [hset, hslots, List.reduceOption_append, List.reduceOption_append, List.reduceOption_cons_of_some,
    List.reduceOption_cons_of_none]
  exact List.perm_middle

theorem separate_of_nodup (h : slots.reduceOption.Nodup) : Separate (slotOf slots) := by
  intro m n a hm hn
  by_contra hne
  -- a second copy is left when the first is cleared
  have hcleared := (reduceOption_clear (slotOf_eq_some_iff.mp hm)).nodup_iff.mp h
  refine (List.nodup_cons.mp hcleared).1 (@mem_reduceOption_of_slot _ _ _ n ?_)
  rw [slotOf_set (List.getElem?_eq_some_iff.mp (slotOf_eq_some_iff.mp hm)).1, update_of_ne (Ne.symm hne), hn]

end

/-! ## Removing by a swap -/

/-- The last value comes into the place of the one removed. -/
def swapRemove {β : Type*} (l : List β) (i : Nat) : List β :=
  match l.getLast? with
  | none => l
  | some last => if i + 1 ≠ l.length then (l.set i last).dropLast else l.dropLast

section

variable {β γ : Type*} {l : List β} {i : Nat} {b : β}

theorem swapRemove_concat (l : List β) (last : β) (i : Nat) (h : i < (l ++ [last]).length) :
    swapRemove (l ++ [last]) i = if i < l.length then l.set i last else l := by
  rw [List.length_append, List.length_singleton] at h
  rw [swapRemove, List.getLast?_concat]
  dsimp only
  rw [List.length_append, List.length_singleton]
  by_cases hi : i < l.length
  · rw [if_pos (by omega), if_pos hi, List.set_append_left _ _ hi, List.dropLast_concat]
  · rw [if_neg (by omega), if_neg hi, List.dropLast_concat]

theorem length_swapRemove (h : i < l.length) : (swapRemove l i).length = l.length - 1 := by
  rcases List.eq_nil_or_concat l with rfl | ⟨init, last, rfl⟩
  · cases h
  · rw [List.concat_eq_append, swapRemove_concat init last i (List.concat_eq_append ▸ h), List.length_append]
    split
    · rw [List.length_set]
      rfl
    · rfl

theorem swapRemove_map (f : β → γ) (l : List β) (i : Nat) : swapRemove (l.map f) i = (swapRemove l i).map f := by
  rw [swapRemove, swapRemove, List.getLast?_map, List.length_map]
  cases l.getLast? with
  | none => rfl
  | some last =>
    show (if _ then ((l.map f).set i (f last)).dropLast else (l.map f).dropLast) = List.map f (if _ then _ else _)
    split
    · rw [List.map_dropLast, List.map_set]
    · rw [List.map_dropLast]

/-- **Exactly the one value** is removed. -/
theorem perm_swapRemove (h : l[i]? = some b) : l.Perm (b :: swapRemove l i) := by
  have hlt := (List.getElem?_eq_some_iff.mp h).1
  rcases List.eq_nil_or_concat l with rfl | ⟨init, last, rfl⟩
  · cases h
  · rw [List.concat_eq_append] at h hlt ⊢
    rw [swapRemove_concat init last i hlt]
    by_cases hi : i < init.length
    · rw [List.getElem?_append_left hi] at h
      obtain ⟨front, back, hinit, hset⟩ := exists_around h
      rw [if_pos hi, hset, hinit, List.append_assoc]
      refine List.perm_middle.trans (List.Perm.cons _ ?_)
      exact (List.perm_append_singleton last back).append_left front
    · obtain rfl : i = init.length := by
        rw [List.length_append, List.length_singleton] at hlt
        omega
      rw [List.getElem?_concat_length] at h
      rw [if_neg hi, Option.some.inj h]
      exact List.perm_append_singleton b init

/-- The values in front stay in place. -/
theorem getElem?_swapRemove (hj : n < i) (hi : i < l.length) : (swapRemove l i)[n]? = l[n]? := by
  rcases List.eq_nil_or_concat l with rfl | ⟨init, last, rfl⟩
  · cases hi
  · rw [List.concat_eq_append] at hi ⊢
    rw [swapRemove_concat init last i hi]
    rw [List.length_append, List.length_singleton] at hi
    rw [List.getElem?_append_left (by omega)]
    split
    · rw [List.getElem?_set, if_neg (by omega)]
    · rfl

end

/-! ## Walks -/

/-- A walk over slots: the slot that it comes to next, its bound once it is known, the values of its beginning that are
still there, and those that it has come past. -/
structure SlotWalk (α : Type*) where
  next : Nat
  stop : Option Nat
  survivors : List α
  visited : List α

namespace SlotWalk

/-- The walk will still come to the slot. -/
def Ahead (walk : SlotWalk α) (n : Nat) : Prop := walk.next ≤ n ∧ ∀ stop, walk.stop = some stop → n < stop

/-- Each survivor has been visited or is ahead, nothing that has been visited is ahead or was visited twice. -/
structure Sound (slots : Nat → Option α) (walk : SlotWalk α) : Prop where
  reach : ∀ a ∈ walk.survivors, a ∈ walk.visited ∨ ∃ n, walk.Ahead n ∧ slots n = some a
  passed : ∀ a ∈ walk.visited, ∀ n, walk.Ahead n → slots n ≠ some a
  nodup : walk.visited.Nodup

variable {slots : Nat → Option α} {walk : SlotWalk α} {survivors : List α} {a : α} {n : Nat}

theorem sound_start (h : ∀ a ∈ survivors, ∃ n, slots n = some a) : Sound slots ⟨0, none, survivors, []⟩ where
  reach := by
    intro a ha
    obtain ⟨n, hn⟩ := h a ha
    refine .inr ⟨n, ⟨Nat.zero_le n, fun stop hstop => ?_⟩, hn⟩
    cases hstop
  passed := List.forall_mem_nil _
  nodup := .nil

/-- **A value put into a free slot** disturbs no walk. -/
theorem Sound.put (h : walk.Sound slots) (hfree : slots n = none) (hnew : a ∉ walk.visited) :
    walk.Sound (update slots n (some a)) where
  reach := by
    intro b hb
    refine (h.reach b hb).imp id fun ⟨m, hm, hslot⟩ => ⟨m, hm, ?_⟩
    rw [update_of_ne, hslot]
    rintro rfl
    rw [hfree] at hslot
    cases hslot
  passed := by
    intro b hb m hm hslot
    by_cases hmn : m = n
    · subst hmn
      rw [update_self] at hslot
      exact hnew (Option.some.inj hslot ▸ hb)
    · rw [update_of_ne hmn] at hslot
      exact h.passed b hb m hm hslot
  nodup := h.nodup

/-- **A value cleared out of its slot** leaves the others within reach. -/
theorem Sound.clear (h : walk.Sound slots) (hslot : slots n = some a)
    (hrest : ∀ b ∈ survivors, b ∈ walk.survivors ∧ b ≠ a) :
    Sound (update slots n none) { walk with survivors := survivors } where
  reach := by
    intro b hb
    obtain ⟨hmem, hne⟩ := hrest b hb
    refine (h.reach b hmem).imp id fun ⟨m, hm, hb⟩ => ⟨m, hm, ?_⟩
    rw [update_of_ne, hb]
    rintro rfl
    exact hne (Option.some.inj (hb.symm.trans hslot))
  passed := by
    intro b hb m hm hslot'
    by_cases hmn : m = n
    · subst hmn
      rw [update_self] at hslot'
      cases hslot'
    · rw [update_of_ne hmn] at hslot'
      exact h.passed b hb m hm hslot'
  nodup := h.nodup

theorem Ahead.of_next (h : Ahead { walk with next := walk.next + 1 } n) : walk.Ahead n ∧ n ≠ walk.next :=
  ⟨⟨Nat.le_of_lt h.1, h.2⟩, Nat.ne_of_gt h.1⟩

theorem Ahead.next_of_ne (h : walk.Ahead n) (hne : n ≠ walk.next) : Ahead { walk with next := walk.next + 1 } n :=
  ⟨Nat.lt_of_le_of_ne h.1 (Ne.symm hne), h.2⟩

section

variable (h : walk.Sound slots)
include h

/-- A step past an empty slot. -/
theorem Sound.skip (hempty : slots walk.next = none) :
    Sound slots { walk with next := walk.next + 1 } where
  reach := by
    intro a ha
    refine (h.reach a ha).imp id fun ⟨n, hn, hslot⟩ => ⟨n, hn.next_of_ne ?_, hslot⟩
    rintro rfl
    rw [hempty] at hslot
    cases hslot
  passed := fun a ha n hn => h.passed a ha n hn.of_next.1
  nodup := h.nodup

/-- **A step past a value.** -/
theorem Sound.visit (hseparate : Separate slots) (hahead : walk.Ahead walk.next)
    (hslot : slots walk.next = some a) :
    Sound slots { walk with next := walk.next + 1, visited := walk.visited ++ [a] } where
  reach := by
    intro b hb
    rcases h.reach b hb with hvisited | ⟨n, hn, hb⟩
    · exact .inl (List.mem_append_left _ hvisited)
    · by_cases hnext : n = walk.next
      · subst hnext
        obtain rfl : a = b := Option.some.inj (hslot.symm.trans hb)
        exact .inl (List.mem_append_right _ (List.mem_singleton_self a))
      · exact .inr ⟨n, hn.next_of_ne hnext, hb⟩
  passed := by
    intro b hb n hn hb'
    obtain ⟨hn, hne⟩ := @Ahead.of_next _ walk n hn
    rcases List.mem_append.mp hb with hvisited | hb
    · exact h.passed b hvisited n hn hb'
    · obtain rfl := List.mem_singleton.mp hb
      exact hne (hseparate hb' hslot)
  nodup := by
    refine List.nodup_append.mpr ⟨h.nodup, List.nodup_singleton a, ?_⟩
    rintro b hb c hc rfl
    obtain rfl := List.mem_singleton.mp hc
    exact h.passed b hb walk.next hahead hslot

/-- The bound becomes known; nothing stands beyond it. -/
theorem Sound.bound {stop : Nat} (hnone : walk.stop = none)
    (hbeyond : ∀ n, stop ≤ n → slots n = none) : Sound slots { walk with stop := some stop } where
  reach := by
    intro a ha
    refine (h.reach a ha).imp id fun ⟨n, hn, hslot⟩ => ⟨n, ⟨hn.1, ?_⟩, hslot⟩
    intro stop' hstop
    obtain rfl := Option.some.inj hstop
    by_contra hle
    rw [hbeyond n (Nat.le_of_not_lt hle)] at hslot
    cases hslot
  passed := by
    intro a ha n hn
    refine h.passed a ha n ⟨hn.1, fun stop' hstop => ?_⟩
    rw [hnone] at hstop
    cases hstop
  nodup := h.nodup

/-- **At the end** every survivor has been visited. -/
theorem Sound.over (hend : ∀ n, ¬walk.Ahead n) : ∀ a ∈ walk.survivors, a ∈ walk.visited :=
  fun a ha => (h.reach a ha).resolve_right fun ⟨n, hn, _⟩ => hend n hn

end

end SlotWalk

end Library
