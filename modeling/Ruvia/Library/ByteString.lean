import Mathlib.Algebra.Group.Nat.Defs
import Mathlib.Data.List.Basic
import Mathlib.Data.List.Infix

/-!
# `Library.ByteString` — byte strings, windows and forward searches

Byte strings are lists of `UInt8`. The file fixes the three operations every scanner is written with:

* `lit` — the bytes of a text literal;
* `sub` — the window `substr(pos, len)`;
* `findFrom` / `findByte` — the first match at or after an offset.

A search is only ever used through its characterisation (`findByte_eq_some_iff`,
`findByte_eq_none_iff`). From it follow the two facts an incremental scanner rests on: a hit does not
move when bytes are appended (`findByte_append_of_some`), and bytes known to hold no match may be skipped
(`findByte_skip`).
-/

namespace Library

/-- A byte string. -/
abbrev Bytes := List UInt8

/-- The bytes of a text literal. -/
def lit (s : String) : Bytes := s.toList.map fun c => UInt8.ofNat c.toNat

/-- The window of at most `len` bytes that starts at `pos`. -/
def sub {α : Type*} (l : List α) (pos len : Nat) : List α := (l.drop pos).take len

/-- Index of the first element at or after `off` that satisfies `p`. -/
def findFrom {α : Type*} (p : α → Bool) (l : List α) (off : Nat) : Option Nat :=
  ((l.drop off).findIdx? p).map (· + off)

/-- Index of the first byte `b` at or after `off`. -/
def findByte (b : UInt8) (l : Bytes) (off : Nat) : Option Nat := findFrom (· == b) l off

section

variable {α : Type*} {p : α → Bool} {l : List α} {off i : Nat}

theorem findFrom_eq_none : findFrom p l off = none ↔ ∀ x ∈ l.drop off, p x = false := by
  simp only [findFrom, Option.map_eq_none_iff, List.findIdx?_eq_none_iff]

theorem findFrom_eq_none_iff : findFrom p l off = none ↔ ∀ j, off ≤ j → ∀ x, l[j]? = some x → p x = false := by
  rw [findFrom_eq_none]
  constructor
  · intro h j hj x hx
    refine h x (List.mem_of_getElem? (i := j - off) ?_)
    rw [List.getElem?_drop, Nat.add_sub_cancel' hj]
    exact hx
  · intro h x hx
    obtain ⟨k, hk⟩ := List.getElem?_of_mem hx
    rw [List.getElem?_drop] at hk
    exact h (off + k) (Nat.le_add_right _ _) x hk

theorem findFrom_eq_some_iff :
    findFrom p l off = some i ↔
      off ≤ i ∧ (∃ x, l[i]? = some x ∧ p x = true) ∧
        ∀ j, off ≤ j → j < i → ∀ x, l[j]? = some x → p x = false := by
  simp only [findFrom, Option.map_eq_some_iff, List.findIdx?_eq_some_iff_getElem]
  constructor
  · rintro ⟨k, ⟨hk, hp, hmin⟩, rfl⟩
    refine ⟨by omega, ⟨(l.drop off)[k], ?_, hp⟩, ?_⟩
    · rw [Nat.add_comm, ← List.getElem?_drop, List.getElem?_eq_getElem hk]
    · intro j hj hjk x hx
      have hlt : j - off < k := by omega
      have hval : (l.drop off)[j - off]? = some x := by
        rw [List.getElem?_drop, Nat.add_sub_cancel' hj]
        exact hx
      obtain ⟨hb, hbx⟩ := List.getElem?_eq_some_iff.mp hval
      have := hmin (j - off) hlt
      rw [hbx] at this
      simpa using this
  · rintro ⟨hle, ⟨x, hx, hp⟩, hmin⟩
    have hval : (l.drop off)[i - off]? = some x := by
      rw [List.getElem?_drop, Nat.add_sub_cancel' hle]
      exact hx
    obtain ⟨hb, hbx⟩ := List.getElem?_eq_some_iff.mp hval
    refine ⟨i - off, ⟨hb, by rw [hbx]; exact hp, ?_⟩, by omega⟩
    intro j hj
    have hjb : j < (l.drop off).length := by omega
    have hjv : l[off + j]? = some (l.drop off)[j] := by
      rw [← List.getElem?_drop, List.getElem?_eq_getElem hjb]
    simpa using hmin (off + j) (by omega) (by omega) _ hjv

end

variable {b : UInt8} {l m : Bytes} {off i : Nat}

/-- No `b` at or after `off`. -/
theorem findByte_eq_none_iff : findByte b l off = none ↔ ∀ j, off ≤ j → l[j]? ≠ some b := by
  rw [findByte, findFrom_eq_none_iff]
  constructor
  · intro h j hj hb
    simpa using h j hj b hb
  · intro h j hj x hx
    have : x ≠ b := fun he => h j hj (he ▸ hx)
    simpa using this

/-- **The first `b` at or after `off`.** -/
theorem findByte_eq_some_iff :
    findByte b l off = some i ↔ off ≤ i ∧ l[i]? = some b ∧ ∀ j, off ≤ j → j < i → l[j]? ≠ some b := by
  rw [findByte, findFrom_eq_some_iff]
  constructor
  · rintro ⟨hle, ⟨x, hx, hp⟩, hmin⟩
    have hxb : x = b := by simpa using hp
    refine ⟨hle, hxb ▸ hx, fun j hj hji hb => ?_⟩
    simpa using hmin j hj hji b hb
  · rintro ⟨hle, hx, hmin⟩
    refine ⟨hle, ⟨b, hx, by simp⟩, fun j hj hji x hjx => ?_⟩
    have : x ≠ b := fun he => hmin j hj hji (he ▸ hjx)
    simpa using this

theorem findByte_lt (h : findByte b l off = some i) : i < l.length :=
  (List.getElem?_eq_some_iff.mp (findByte_eq_some_iff.mp h).2.1).1

/-- A hit does not move when bytes are appended. -/
theorem findByte_append_of_some (h : findByte b l off = some i) : findByte b (l ++ m) off = some i := by
  have hlt := findByte_lt h
  obtain ⟨hle, hb, hmin⟩ := findByte_eq_some_iff.mp h
  refine findByte_eq_some_iff.mpr ⟨hle, ?_, fun j hj hji => ?_⟩
  · rw [List.getElem?_append_left hlt]; exact hb
  · rw [List.getElem?_append_left (by omega)]; exact hmin j hj hji

/-- A search finds nothing in a tail that does not hold the byte. -/
theorem findByte_append_of_not_mem (h : b ∉ m) : findByte b (l ++ m) off = findByte b l off := by
  cases hfind : findByte b l off with
  | some i => exact findByte_append_of_some hfind
  | none =>
    rw [findByte_eq_none_iff] at hfind ⊢
    intro j hj hb
    rcases Nat.lt_or_ge j l.length with hlt | hge
    · rw [List.getElem?_append_left hlt] at hb
      exact hfind j hj hb
    · rw [List.getElem?_append_right hge] at hb
      exact h (List.mem_of_getElem? hb)

/-- A search may start behind a stretch that is known to hold no match. -/
theorem findByte_skip {off' : Nat} (hle : off ≤ off')
    (hno : ∀ j, off ≤ j → j < off' → l[j]? ≠ some b) : findByte b l off' = findByte b l off := by
  cases h : findByte b l off' with
  | none =>
    refine (findByte_eq_none_iff.mpr fun j hj => ?_).symm
    rcases Nat.lt_or_ge j off' with hlt | hge
    · exact hno j hj hlt
    · exact findByte_eq_none_iff.mp h j hge
  | some i =>
    obtain ⟨hi, hb, hmin⟩ := findByte_eq_some_iff.mp h
    refine (findByte_eq_some_iff.mpr ⟨by omega, hb, fun j hj hji => ?_⟩).symm
    rcases Nat.lt_or_ge j off' with hlt | hge
    · exact hno j hj hlt
    · exact hmin j hge hji

/-! ## First positions

A scanner that is not a plain search is specified by the positions it looks for. -/

section

variable {P : Nat → Prop} {start start' k : Nat}

/-- The answer of a search for the first position at or after `start` with `P`. -/
def SearchResult (P : Nat → Prop) (start : Nat) : Option Nat → Prop
  | none => ∀ j, start ≤ j → ¬ P j
  | some k => start ≤ k ∧ P k ∧ ∀ j, start ≤ j → j < k → ¬ P j

theorem SearchResult.unique {r s : Option Nat} (hr : SearchResult P start r)
    (hs : SearchResult P start s) : r = s := by
  cases r with
  | none =>
    cases s with
    | none => rfl
    | some k => exact absurd hs.2.1 (hr k hs.1)
  | some k =>
    cases s with
    | none => exact absurd hr.2.1 (hs k hr.1)
    | some k' =>
      rcases Nat.lt_trichotomy k k' with h | h | h
      · exact absurd hr.2.1 (hs.2.2 k hr.1 h)
      · rw [h]
      · exact absurd hs.2.1 (hr.2.2 k' hs.1 h)

/-- A search may start behind a stretch that is known to hold nothing. -/
theorem SearchResult.skip {r : Option Nat} (hle : start ≤ start')
    (hno : ∀ j, start ≤ j → j < start' → ¬ P j) (h : SearchResult P start' r) : SearchResult P start r := by
  cases r with
  | none =>
    intro j hj
    rcases Nat.lt_or_ge j start' with hlt | hge
    · exact hno j hj hlt
    · exact h j hge
  | some k =>
    refine ⟨hle.trans h.1, h.2.1, fun j hj hjk => ?_⟩
    rcases Nat.lt_or_ge j start' with hlt | hge
    · exact hno j hj hlt
    · exact h.2.2 j hge hjk

end

/-! ## Windows -/

section

variable {α : Type*} {l m : List α} {pos len i : Nat}

@[simp] theorem length_sub : (sub l pos len).length = min len (l.length - pos) := by
  simp [sub]

theorem getElem?_sub (h : i < len) : (sub l pos len)[i]? = l[pos + i]? := by
  rw [sub, List.getElem?_take_of_lt h, List.getElem?_drop]

/-- A full window is unchanged by appended bytes. -/
theorem sub_append_of_full (h : pos + len ≤ l.length) : sub (l ++ m) pos len = sub l pos len := by
  rw [sub, sub, List.drop_append_of_le_length (by omega), List.take_append_of_le_length]
  rw [List.length_drop]
  omega

theorem take_length_takeWhile (p : α → Bool) : l.take (l.takeWhile p).length = l.takeWhile p :=
  (List.prefix_iff_eq_take.mp (List.takeWhile_prefix p)).symm

/-- A run in front is dropped up to the first element that does not continue it. -/
theorem dropWhile_append_stop {p : α → Bool} (hrun : ∀ a ∈ l, p a = true)
    (hstop : ∀ a, m.head? = some a → p a = false) : (l ++ m).dropWhile p = m := by
  rw [List.dropWhile_append_of_pos hrun]
  cases m with
  | nil => rfl
  | cons a m => exact List.dropWhile_cons_of_neg (by rw [hstop a rfl]; exact Bool.false_ne_true)

theorem takeWhile_run_stop {p : α → Bool} (hrun : ∀ a ∈ l, p a = true)
    (hstop : ∀ a, m.head? = some a → p a = false) : (l ++ m).takeWhile p = l := by
  rw [List.takeWhile_append_of_pos hrun]
  cases m with
  | nil => exact List.append_nil l
  | cons a m => rw [List.takeWhile_cons_of_neg (by rw [hstop a rfl]; exact Bool.false_ne_true), List.append_nil]

theorem drop_length_takeWhile (p : α → Bool) : l.drop (l.takeWhile p).length = l.dropWhile p := by
  calc l.drop (l.takeWhile p).length
      = (l.takeWhile p ++ l.dropWhile p).drop (l.takeWhile p).length := by
        rw [List.takeWhile_append_dropWhile]
    _ = l.dropWhile p := List.drop_left

/-- A window that reaches its length keeps it, also an empty one behind the end. -/
theorem sub_append_of_length (h : (sub l pos len).length = len) : sub (l ++ m) pos len = sub l pos len := by
  rw [sub, List.length_take, List.length_drop] at h
  rw [sub, sub, List.drop_append, List.take_append_of_le_length]
  rw [List.length_drop]
  omega

theorem sub_append_right (l m : List α) (pos len : Nat) : sub (l ++ m) (l.length + pos) len = sub m pos len := by
  rw [sub, sub, List.drop_append, List.drop_eq_nil_of_le (by omega), Nat.add_sub_cancel_left, List.nil_append]

theorem sub_map {β : Type*} (f : α → β) (l : List α) (pos len : Nat) :
    sub (l.map f) pos len = (sub l pos len).map f := by
  rw [sub, sub, List.map_take, List.map_drop]

/-- Later bytes widen a window only when it was not full. -/
theorem take_window (n : Nat) (l m : List α) :
    ∃ tail, (l ++ m).take n = l.take n ++ tail ∧ (n ≤ (l.take n).length → tail = []) := by
  refine ⟨_, List.take_append, fun h => ?_⟩
  rw [List.length_take] at h
  rw [show n - l.length = 0 by omega, List.take_zero]

end

/-! ## Pieces -/

/-- The pieces of a split hold elements of the list only. -/
theorem mem_of_mem_splitOn {α : Type*} [BEq α] {x a : α} {l piece : List α} (h : piece ∈ l.splitOn x)
    (ha : a ∈ piece) : a ∈ l := by
  induction l generalizing piece with
  | nil =>
    obtain rfl : piece = [] := by simpa using h
    exact ha
  | cons y l ih =>
    rw [List.splitOn_cons_eq_if_modifyHead] at h
    split at h
    · rcases List.mem_cons.mp h with rfl | h
      · cases ha
      · exact List.mem_cons_of_mem _ (ih h ha)
    · obtain ⟨head, tail, hsplit⟩ := List.exists_cons_of_ne_nil (List.splitOn_ne_nil x l)
      rw [hsplit, List.modifyHead_cons, List.mem_cons] at h
      rcases h with rfl | h
      · rcases List.mem_cons.mp ha with rfl | ha
        · exact List.mem_cons_self
        · exact List.mem_cons_of_mem _ (ih (hsplit ▸ List.mem_cons_self) ha)
      · exact List.mem_cons_of_mem _ (ih (hsplit ▸ List.mem_cons_of_mem _ h) ha)

end Library
