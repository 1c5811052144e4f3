import Mathlib.Data.List.Basic

/-!
# `Library.PartitionPoint` — binary search for the end of a true prefix

`partitionPoint p l` halves the range until it is empty. On a list whose elements satisfying `p` come
first it is the length of that prefix (`partitionPoint_spec`).
-/

namespace Library

variable {α : Type*} (p : α → Bool) (l : List α)

/-- The search in the `len` elements from `first` on. -/
def partitionPointFrom (first len : Nat) : Nat :=
  if 0 < len then
    match l[first + len / 2]? with
    | none => first
    | some x =>
      if p x then partitionPointFrom (first + len / 2 + 1) (len - len / 2 - 1)
      else partitionPointFrom first (len / 2)
  else first
termination_by len

def partitionPoint : Nat := partitionPointFrom p l 0 l.length

/-- The elements satisfying `p` come first. -/
def Partitioned : Prop := ∀ (i j : Nat) (x y : α), i ≤ j → l[i]? = some x → l[j]? = some y → p y = true → p x = true

variable {p l}

/-- A sorted list is partitioned by what holds in front of each element for which it holds. -/
theorem partitioned_of_pairwise {r : α → α → Prop} (hsorted : l.Pairwise r)
    (hfront : ∀ x y, r x y → p y = true → p x = true) : Partitioned p l := by
  intro i j x y hij hx hy hp
  rcases Nat.lt_or_eq_of_le hij with hij | rfl
  · obtain ⟨hi, rfl⟩ := List.getElem?_eq_some_iff.mp hx
    obtain ⟨hj, rfl⟩ := List.getElem?_eq_some_iff.mp hy
    exact hfront _ _ (List.pairwise_iff_getElem.mp hsorted i j hi hj hij) hp
  · rw [hx] at hy
    cases hy
    exact hp

theorem partitionPointFrom_spec (h : Partitioned p l) (first len : Nat) (hlen : first + len ≤ l.length)
    (hbefore : ∀ (i : Nat) x, i < first → l[i]? = some x → p x = true)
    (hbehind : ∀ (i : Nat) x, first + len ≤ i → l[i]? = some x → p x = false) :
    (∀ (i : Nat) x, i < partitionPointFrom p l first len → l[i]? = some x → p x = true) ∧
      ∀ (i : Nat) x, partitionPointFrom p l first len ≤ i → l[i]? = some x → p x = false := by
  fun_induction partitionPointFrom p l first len with
  | case1 first len hpos hnone =>
    have := List.getElem?_eq_none_iff.mp hnone
    omega
  | case2 first len hpos x hx hp ih =>
    refine ih (by omega) (fun i y hi hy => h i _ y x (by omega) hy hx hp) fun i y hi hy => ?_
    exact hbehind i y (by omega) hy
  | case3 first len hpos x hx hp ih =>
    refine ih (by omega) hbefore fun i y hi hy => ?_
    rw [Bool.eq_false_iff]
    exact fun hpy => hp (h _ i x y (by omega) hx hy hpy)
  | case4 first len hzero => exact ⟨hbefore, fun i x hi hx => hbehind i x (by omega) hx⟩

/-- **The partition point** has all elements satisfying `p` in front of it, and no other. -/
theorem partitionPoint_spec (h : Partitioned p l) :
    (∀ (i : Nat) x, i < partitionPoint p l → l[i]? = some x → p x = true) ∧
      ∀ (i : Nat) x, partitionPoint p l ≤ i → l[i]? = some x → p x = false := by
  refine partitionPointFrom_spec h 0 l.length (by omega) (fun i x hi => absurd hi (Nat.not_lt_zero _)) ?_
  intro i x hi hx
  have := (List.getElem?_eq_some_iff.mp hx).1
  omega

end Library
