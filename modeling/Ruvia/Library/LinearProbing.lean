import Mathlib.Data.Fintype.Card
import Mathlib.Logic.Function.Basic

/-!
# `Library.LinearProbing` — open addressing with backward-shift deletion

A table of `n` slots in a ring. An element belongs to a slot of its own (`ideal`) and lies in the first slot from
there that was free; `Probing` says that no slot on the way is empty. Then a search that stops at the first empty
slot misses no element (`findFrom_ne_none`), insertion into a table with an empty slot keeps the invariant
(`insert_spec`), and so does deletion, which moves elements back over the hole it leaves (`erase_spec`).
-/

namespace Library.LinearProbing

open Function

variable {n : Nat}

/-! ## Distances around the ring -/

/-- The steps from one slot forward to another. -/
def gap (a b : Fin n) : Nat := (b - a).val

theorem gap_eq (a b : Fin n) : gap a b = if a.val ≤ b.val then b.val - a.val else b.val + n - a.val := by
  unfold gap
  rw [Fin.sub_def]
  split
  · rw [show n - a.val + b.val = n + (b.val - a.val) by omega]
    exact (Nat.add_mod_left _ _).trans (Nat.mod_eq_of_lt (by omega))
  · rw [show n - a.val + b.val = b.val + n - a.val by omega]
    exact Nat.mod_eq_of_lt (by omega)

theorem gap_lt (a b : Fin n) : gap a b < n := (b - a).isLt

theorem gap_eq_zero {a b : Fin n} : gap a b = 0 ↔ a = b := by
  rw [gap_eq, Fin.ext_iff]
  split <;> omega

@[simp] theorem gap_self (a : Fin n) : gap a a = 0 := gap_eq_zero.mpr rfl

/-- Going on from one slot to another goes around once at most. -/
theorem gap_add (a b c : Fin n) : gap a b + gap b c = gap a c ∨ gap a b + gap b c = gap a c + n := by
  rw [gap_eq, gap_eq, gap_eq]
  split <;> split <;> split <;> omega

theorem gap_inj {a b c : Fin n} (h : gap a b = gap a c) : b = c := by
  rw [gap_eq, gap_eq] at h
  rw [Fin.ext_iff]
  split at h <;> split at h <;> omega

/-- The slot behind one, around the ring. -/
def succ (slot : Fin n) : Fin n := ⟨(slot.val + 1) % n, Nat.mod_lt _ slot.pos⟩

theorem gap_succ {a b : Fin n} (h : gap a b + 1 < n) : gap a (succ b) = gap a b + 1 := by
  have hval : (succ b).val = (b.val + 1) % n := rfl
  rw [gap_eq] at h ⊢
  rw [gap_eq, hval]
  by_cases hlast : b.val + 1 = n
  · rw [hlast, Nat.mod_self]
    split at h <;> split <;> omega
  · rw [Nat.mod_eq_of_lt (by omega)]
    split at h <;> split <;> omega

/-- A step forward comes one slot nearer. -/
theorem gap_succ_left {a b : Fin n} (h : a ≠ b) : gap (succ a) b + 1 = gap a b := by
  have hval : (succ a).val = (a.val + 1) % n := rfl
  rw [gap_eq, gap_eq, hval]
  by_cases hlast : a.val + 1 = n
  · rw [hlast, Nat.mod_self]
    split <;> split <;> omega
  · rw [Nat.mod_eq_of_lt (by omega)]
    split <;> split <;> omega

theorem gap_one (h : 1 < n) (a : Fin n) : gap a (succ a) = 1 := by
  rw [gap_succ (by rw [gap_self]; exact h), gap_self]

/-! ## Tables -/

variable {α : Type*}

/-- An element is in the table. -/
def Mem (table : Fin n → Option α) (x : α) : Prop := ∃ slot, table slot = some x

/-- **The probing invariant**: no slot between an element and the slot it belongs to is empty. -/
structure Probing (ideal : α → Fin n) (table : Fin n → Option α) : Prop where
  reach : ∀ slot x, table slot = some x → ∀ p, gap (ideal x) p < gap (ideal x) slot → table p ≠ none
  once : ∀ slot slot' x, table slot = some x → table slot' = some x → slot = slot'

theorem probing_empty (ideal : α → Fin n) : Probing ideal (fun _ : Fin n => none) :=
  ⟨nofun, nofun⟩

/-- The invariant is about the elements of the table only. -/
theorem Probing.congr {ideal ideal' : α → Fin n} {table : Fin n → Option α} (h : Probing ideal table)
    (heq : ∀ x, Mem table x → ideal' x = ideal x) : Probing ideal' table := by
  refine ⟨fun slot x hx p hp => ?_, h.once⟩
  rw [heq x ⟨slot, hx⟩] at hp
  exact h.reach slot x hx p hp

/-- A table whose elements have fewer numbers than it has slots has an empty one. -/
theorem exists_empty {ideal : α → Fin n} {table : Fin n → Option α} (h : Probing ideal table) (number : α → Nat)
    (hnumber : ∀ x y, Mem table x → Mem table y → number x = number y → x = y) {m : Nat}
    (hbound : ∀ x, Mem table x → number x < m) (hm : m < n) : ∃ slot, table slot = none := by
  by_contra hfull
  simp only [not_exists] at hfull
  have hsome : ∀ slot, ∃ x, table slot = some x := fun slot => Option.ne_none_iff_exists'.mp (hfull slot)
  choose f hf using hsome
  have hinj : Injective fun slot : Fin n => (⟨number (f slot), hbound _ ⟨slot, hf slot⟩⟩ : Fin m) := by
    intro a b hab
    have hval : f a = f b := hnumber _ _ ⟨a, hf a⟩ ⟨b, hf b⟩ (congrArg Fin.val hab)
    exact h.once a b (f a) (hf a) (hval ▸ hf b)
  have hcard := Fintype.card_le_of_injective _ hinj
  rw [Fintype.card_fin, Fintype.card_fin] at hcard
  omega

/-! ## Searching -/

/-- The search from a slot on, for the rest of the ring. -/
def findFrom (accepts : α → Bool) (table : Fin n → Option α) : Nat → Fin n → Option α
  | 0, _ => none
  | k + 1, slot =>
    match table slot with
    | none => none
    | some x => if accepts x then some x else findFrom accepts table k (succ slot)

def find (start : Fin n) (accepts : α → Bool) (table : Fin n → Option α) : Option α :=
  findFrom accepts table n start

variable {accepts : α → Bool} {table : Fin n → Option α} {ideal : α → Fin n}

theorem findFrom_some {x : α} (k : Nat) (slot : Fin n) (h : findFrom accepts table k slot = some x) :
    Mem table x ∧ accepts x = true := by
  induction k generalizing slot with
  | zero => cases h
  | succ k ih =>
    unfold findFrom at h
    split at h
    · cases h
    · rename_i y hy
      split at h
      · cases h
        exact ⟨⟨slot, hy⟩, ‹_›⟩
      · exact ih (succ slot) h

/-- What is found is in the table. -/
theorem find_some {start : Fin n} {x : α} (h : find start accepts table = some x) :
    Mem table x ∧ accepts x = true := findFrom_some n start h

theorem findFrom_ne_none (h : Probing ideal table) {slot : Fin n} {x : α} (hx : table slot = some x)
    (haccepts : accepts x = true) (k : Nat) (p : Fin n) (hle : gap (ideal x) p ≤ gap (ideal x) slot)
    (hfuel : gap (ideal x) slot < gap (ideal x) p + k) : findFrom accepts table k p ≠ none := by
  induction k generalizing p with
  | zero => omega
  | succ k ih =>
    unfold findFrom
    by_cases hp : p = slot
    · rw [hp, hx]
      dsimp only
      rw [if_pos haccepts]
      exact Option.some_ne_none x
    · have hlt : gap (ideal x) p < gap (ideal x) slot := by
        refine lt_of_le_of_ne hle fun heq => hp (gap_inj heq)
      obtain ⟨y, hy⟩ := Option.ne_none_iff_exists'.mp (h.reach slot x hx p hlt)
      rw [hy]
      dsimp only
      split
      · exact Option.some_ne_none y
      · have hn := gap_lt (ideal x) slot
        have hsucc := gap_succ (a := ideal x) (b := p) (by omega)
        exact ih (succ p) (by omega) (by omega)

/-- A search that fails: nothing that belongs there is accepted. -/
theorem find_none (h : Probing ideal table) {start : Fin n} (hnone : find start accepts table = none) {x : α}
    (hx : Mem table x) (hideal : ideal x = start) : accepts x = false := by
  obtain ⟨slot, hslot⟩ := hx
  by_contra haccepts
  rw [Bool.not_eq_false] at haccepts
  refine findFrom_ne_none h hslot haccepts n (ideal x) (by simp) ?_ (hideal ▸ hnone)
  have := gap_lt (ideal x) slot
  omega

/-! ## Insertion -/

def insertFrom (x : α) (table : Fin n → Option α) : Nat → Fin n → Fin n → Option α
  | 0, _ => table
  | k + 1, slot =>
    match table slot with
    | none => update table slot (some x)
    | some _ => insertFrom x table k (succ slot)

def insert (start : Fin n) (x : α) (table : Fin n → Option α) : Fin n → Option α := insertFrom x table n start

theorem insertFrom_spec {x : α} {start free : Fin n} (hfree : table free = none) (k : Nat) (p : Fin n)
    (hfilled : ∀ q, gap start q < gap start p → table q ≠ none) (hle : gap start p ≤ gap start free)
    (hfuel : gap start free < gap start p + k) :
    ∃ slot, table slot = none ∧ (∀ q, gap start q < gap start slot → table q ≠ none) ∧
      insertFrom x table k p = update table slot (some x) := by
  induction k generalizing p with
  | zero => omega
  | succ k ih =>
    unfold insertFrom
    cases hp : table p with
    | none => exact ⟨p, hp, hfilled, rfl⟩
    | some y =>
      have hne : p ≠ free := by
        rintro rfl
        rw [hp] at hfree
        cases hfree
      have hlt : gap start p < gap start free := lt_of_le_of_ne hle fun heq => hne (gap_inj heq)
      have hn := gap_lt start free
      have hsucc := gap_succ (a := start) (b := p) (by omega)
      refine ih (succ p) (fun q hq => ?_) (by omega) (by omega)
      by_cases hqp : q = p
      · rw [hqp, hp]
        exact Option.some_ne_none y
      · refine hfilled q ?_
        have hgap : gap start q ≠ gap start p := fun heq => hqp (gap_inj heq)
        omega

/-- **Insertion** of a new element into a table with an empty slot. -/
theorem insert_spec (h : Probing ideal table) {x : α} (hnew : ¬ Mem table x) (hempty : ∃ slot, table slot = none) :
    Probing ideal (insert (ideal x) x table) ∧
      ∀ y, Mem (insert (ideal x) x table) y ↔ Mem table y ∨ y = x := by
  obtain ⟨free, hfree⟩ := hempty
  obtain ⟨slot, hslot, hfilled, heq⟩ := @insertFrom_spec n α table x (ideal x) free hfree n (ideal x)
    (fun q hq => by rw [gap_self] at hq; omega) (by simp) (by
      have := gap_lt (ideal x) free
      omega)
  have hinsert : insert (ideal x) x table = update table slot (some x) := heq
  have hat : ∀ p y, update table slot (some x) p = some y ↔ p = slot ∧ y = x ∨ p ≠ slot ∧ table p = some y := by
    intro p y
    by_cases hp : p = slot
    · rw [hp, update_self, Option.some.injEq]
      simp [eq_comm]
    · rw [update_of_ne hp]
      simp [hp]
  have hkept : ∀ p, table p ≠ none → update table slot (some x) p ≠ none := by
    intro p hp
    by_cases hps : p = slot
    · rw [hps, update_self]
      exact Option.some_ne_none x
    · rw [update_of_ne hps]
      exact hp
  rw [hinsert]
  refine ⟨⟨fun p y hy q hq => ?_, fun p p' y hy hy' => ?_⟩, fun y => ?_⟩
  · rcases (hat p y).mp hy with ⟨rfl, rfl⟩ | ⟨_, hold⟩
    · exact hkept q (hfilled q hq)
    · exact hkept q (h.reach p y hold q hq)
  · rcases (hat p y).mp hy with ⟨rfl, rfl⟩ | ⟨_, hold⟩
    · rcases (hat p' y).mp hy' with ⟨rfl, -⟩ | ⟨_, hold'⟩
      · rfl
      · exact absurd ⟨p', hold'⟩ hnew
    · rcases (hat p' y).mp hy' with ⟨rfl, rfl⟩ | ⟨_, hold'⟩
      · exact absurd ⟨p, hold⟩ hnew
      · exact h.once p p' y hold hold'
  · constructor
    · rintro ⟨p, hp⟩
      rcases (hat p y).mp hp with ⟨-, rfl⟩ | ⟨_, hy⟩
      · exact .inr rfl
      · exact .inl ⟨p, hy⟩
    · rintro (⟨p, hp⟩ | rfl)
      · refine ⟨p, (hat p y).mpr (.inr ⟨?_, hp⟩)⟩
        rintro rfl
        rw [hslot] at hp
        cases hp
      · exact ⟨slot, (hat slot y).mpr (.inl ⟨rfl, rfl⟩)⟩

/-! ## Deletion -/

/-- Moves elements back over the hole, and empties the last one. -/
def shift (ideal : α → Fin n) : Nat → Fin n → Fin n → (Fin n → Option α) → Fin n → Option α
  | 0, hole, _, table => update table hole none
  | k + 1, hole, next, table =>
    match table next with
    | none => update table hole none
    | some x =>
      if gap hole next ≤ gap (ideal x) next then
        shift ideal k next (succ next) (update table hole (some x))
      else shift ideal k hole (succ next) table

def eraseFrom [DecidableEq α] (ideal : α → Fin n) (x : α) (table : Fin n → Option α) : Nat → Fin n → Fin n → Option α
  | 0, _ => table
  | k + 1, slot =>
    match table slot with
    | none => table
    | some y => if y = x then shift ideal n slot (succ slot) table else eraseFrom ideal x table k (succ slot)

def erase [DecidableEq α] (ideal : α → Fin n) (start : Fin n) (x : α) (table : Fin n → Option α) :
    Fin n → Option α :=
  eraseFrom ideal x table n start

/-- **The invariant of the shift**: only elements that were not looked at yet can lie behind the hole, whose slot
holds no element of its own any more. -/
structure Shifting (ideal : α → Fin n) (table : Fin n → Option α) (hole next : Fin n) : Prop where
  reach : ∀ slot x, slot ≠ hole → table slot = some x → ∀ p, gap (ideal x) p < gap (ideal x) slot →
    p ≠ hole ∧ table p ≠ none ∨ p = hole ∧ gap hole next ≤ gap hole slot
  once : ∀ slot slot' x, slot ≠ hole → slot' ≠ hole → table slot = some x → table slot' = some x → slot = slot'
  ahead : hole ≠ next

/-- The elements outside the hole. -/
def Kept (table : Fin n → Option α) (hole : Fin n) (x : α) : Prop := ∃ slot, slot ≠ hole ∧ table slot = some x

theorem Shifting.finish {hole next : Fin n} (h : Shifting ideal table hole next) (hnext : table next = none) :
    Probing ideal (update table hole none) := by
  have hat : ∀ slot x, update table hole none slot = some x ↔ slot ≠ hole ∧ table slot = some x := by
    intro slot x
    by_cases hslot : slot = hole
    · rw [hslot, update_self]
      simp
    · rw [update_of_ne hslot]
      simp [hslot]
  refine ⟨fun slot x hx p hp => ?_, fun slot slot' x hx hx' => ?_⟩
  · obtain ⟨hslot, hold⟩ := (hat slot x).mp hx
    rcases h.reach slot x hslot hold p hp with ⟨hph, hpn⟩ | ⟨rfl, hle⟩
    · rw [update_of_ne hph]
      exact hpn
    · -- The way through the hole would lead over the empty slot behind it.
      exfalso
      have hne : next ≠ slot := by
        rintro rfl
        rw [hnext] at hold
        cases hold
      have hlt : gap p next < gap p slot := lt_of_le_of_ne hle fun heq => hne (gap_inj heq)
      have hslotGap := gap_add (ideal x) p slot
      have hnextGap := gap_add (ideal x) p next
      have hslotLt := gap_lt (ideal x) slot
      have hpLt := gap_lt p slot
      rcases h.reach slot x hslot hold next (by omega) with ⟨_, hnn⟩ | ⟨heq, _⟩
      · exact hnn hnext
      · exact h.ahead heq.symm
  · obtain ⟨hslot, hold⟩ := (hat slot x).mp hx
    obtain ⟨hslot', hold'⟩ := (hat slot' x).mp hx'
    exact h.once slot slot' x hslot hslot' hold hold'

/-- An element whose way leads over the hole moves into it. -/
theorem Shifting.move {hole next : Fin n} (h : Shifting ideal table hole next) {y : α} (hy : table next = some y)
    (hover : gap hole next ≤ gap (ideal y) next) (hn : 1 < n) :
    Shifting ideal (update table hole (some y)) next (succ next) := by
  have hat : ∀ slot x, slot ≠ next → (update table hole (some y) slot = some x ↔
      slot = hole ∧ x = y ∨ slot ≠ hole ∧ table slot = some x) := by
    intro slot x _
    by_cases hslot : slot = hole
    · rw [hslot, update_self, Option.some.injEq]
      simp [eq_comm]
    · rw [update_of_ne hslot]
      simp [hslot]
  have hone := gap_one hn next
  refine ⟨fun slot x hslot hx p hp => ?_, fun slot slot' x hslot hslot' hx hx' => ?_, fun heq => ?_⟩
  · by_cases hpn : p = next
    · subst hpn
      refine .inr ⟨rfl, ?_⟩
      rw [hone]
      exact Nat.one_le_iff_ne_zero.mpr fun heq => hslot (gap_eq_zero.mp heq).symm
    · refine .inl ⟨hpn, ?_⟩
      by_cases hph : p = hole
      · rw [hph, update_self]
        exact Option.some_ne_none y
      · rw [update_of_ne hph]
        rcases (hat slot x hslot).mp hx with ⟨rfl, rfl⟩ | ⟨hsh, hx⟩
        · have hthrough := gap_add (ideal x) slot next
          have hlt := gap_lt (ideal x) slot
          have hlt' := gap_lt slot next
          rcases h.reach next x (Ne.symm h.ahead) hy p (by omega) with ⟨_, hpt⟩ | ⟨heq, _⟩
          · exact hpt
          · exact absurd heq hph
        · rcases h.reach slot x hsh hx p hp with ⟨_, hpt⟩ | ⟨heq, _⟩
          · exact hpt
          · exact absurd heq hph
  · rcases (hat slot x hslot).mp hx with ⟨rfl, rfl⟩ | ⟨hsh, hold⟩
    · rcases (hat slot' x hslot').mp hx' with ⟨rfl, -⟩ | ⟨hsh', hold'⟩
      · rfl
      · exact absurd (h.once slot' next x hsh' (Ne.symm h.ahead) hold' hy) hslot'
    · rcases (hat slot' x hslot').mp hx' with ⟨rfl, rfl⟩ | ⟨hsh', hold'⟩
      · exact absurd (h.once slot next x hsh (Ne.symm h.ahead) hold hy) hslot
      · exact h.once slot slot' x hsh hsh' hold hold'
  · rw [← heq, gap_self] at hone
    cases hone

/-- An element whose way does not lead over the hole stays. -/
theorem Shifting.stay {hole next : Fin n} (h : Shifting ideal table hole next) {y : α} (hy : table next = some y)
    (hover : ¬ gap hole next ≤ gap (ideal y) next) (hroom : gap hole next + 1 < n) :
    Shifting ideal table hole (succ next) := by
  have hsucc := gap_succ hroom
  refine ⟨fun slot x hslot hx p hp => ?_, h.once, fun heq => ?_⟩
  · refine (h.reach slot x hslot hx p hp).imp_right ?_
    rintro ⟨rfl, hle⟩
    refine ⟨rfl, ?_⟩
    have hne : next ≠ slot := by
      rintro rfl
      rw [hy] at hx
      cases hx
      have hthrough := gap_add (ideal y) p next
      have hlt := gap_lt p next
      omega
    have hgap : gap p next ≠ gap p slot := fun heq => hne (gap_inj heq)
    omega
  · rw [← heq, gap_self] at hsucc
    cases hsucc

theorem shift_spec (hn : 1 < n) {free : Fin n} (k : Nat) (hole next : Fin n) (table : Fin n → Option α)
    (h : Shifting ideal table hole next) (hfree : table free = none) (hhole : hole ≠ free)
    (hle : gap hole next ≤ gap hole free) (hfuel : gap hole free < gap hole next + k) :
    Probing ideal (shift ideal k hole next table) ∧
      ∀ x, Mem (shift ideal k hole next table) x ↔ Kept table hole x := by
  induction k generalizing hole next table with
  | zero => omega
  | succ k ih =>
    unfold shift
    cases hnext : table next with
    | none =>
      dsimp only
      refine ⟨h.finish hnext, fun x => ?_⟩
      constructor
      · rintro ⟨slot, hx⟩
        by_cases hslot : slot = hole
        · rw [hslot, update_self] at hx
          cases hx
        · rw [update_of_ne hslot] at hx
          exact ⟨slot, hslot, hx⟩
      · rintro ⟨slot, hslot, hx⟩
        exact ⟨slot, by rw [update_of_ne hslot]; exact hx⟩
    | some y =>
      have hne : next ≠ free := by
        rintro rfl
        rw [hnext] at hfree
        cases hfree
      have hlt : gap hole next < gap hole free := lt_of_le_of_ne hle fun heq => hne (gap_inj heq)
      have hfreeLt := gap_lt hole free
      dsimp only
      split
      · rename_i hover
        have hmoved := h.move hnext hover hn
        have hone := gap_one hn next
        have hthrough := gap_add hole next free
        have hnextLt := gap_lt next free
        have hahead : gap next free ≠ 0 := fun heq => hne (gap_eq_zero.mp heq)
        have hnextPos : gap hole next ≠ 0 := fun heq => h.ahead (gap_eq_zero.mp heq)
        obtain ⟨hprobing, hmem⟩ := ih next (succ next) (update table hole (some y)) hmoved
          (by rw [update_of_ne (Ne.symm hhole)]; exact hfree) hne (by omega) (by omega)
        refine ⟨hprobing, fun x => (hmem x).trans ?_⟩
        constructor
        · rintro ⟨slot, hslot, hx⟩
          by_cases hsh : slot = hole
          · rw [hsh, update_self] at hx
            cases hx
            exact ⟨next, Ne.symm h.ahead, hnext⟩
          · rw [update_of_ne hsh] at hx
            exact ⟨slot, hsh, hx⟩
        · rintro ⟨slot, hslot, hx⟩
          by_cases hsn : slot = next
          · rw [hsn, hnext] at hx
            cases hx
            exact ⟨hole, h.ahead, update_self _ _ _⟩
          · exact ⟨slot, hsn, by rw [update_of_ne hslot]; exact hx⟩
      · rename_i hover
        have hsucc := gap_succ (a := hole) (b := next) (by omega)
        exact ih hole (succ next) table (h.stay hnext hover (by omega)) hfree hhole (by omega) (by omega)

theorem eraseFrom_eq [DecidableEq α] (h : Probing ideal table) {slot : Fin n} {x : α} (hx : table slot = some x)
    (k : Nat) (p : Fin n) (hle : gap (ideal x) p ≤ gap (ideal x) slot)
    (hfuel : gap (ideal x) slot < gap (ideal x) p + k) :
    eraseFrom ideal x table k p = shift ideal n slot (succ slot) table := by
  induction k generalizing p with
  | zero => omega
  | succ k ih =>
    unfold eraseFrom
    by_cases hp : p = slot
    · rw [hp, hx]
      exact if_pos rfl
    · have hlt : gap (ideal x) p < gap (ideal x) slot := lt_of_le_of_ne hle fun heq => hp (gap_inj heq)
      obtain ⟨y, hy⟩ := Option.ne_none_iff_exists'.mp (h.reach slot x hx p hlt)
      rw [hy]
      dsimp only
      have hne : y ≠ x := by
        rintro rfl
        exact hp (h.once p slot y hy hx)
      rw [if_neg hne]
      have hn := gap_lt (ideal x) slot
      have hsucc := gap_succ (a := ideal x) (b := p) (by omega)
      exact ih (succ p) (by omega) (by omega)

/-- Nothing happens to an element that is not in the table. -/
theorem erase_of_not_mem [DecidableEq α] (start : Fin n) {x : α} (hx : ¬ Mem table x) :
    erase ideal start x table = table := by
  have hfrom : ∀ (k : Nat) (p : Fin n), eraseFrom ideal x table k p = table := by
    intro k
    induction k with
    | zero => exact fun _ => rfl
    | succ k ih =>
      intro p
      unfold eraseFrom
      cases hp : table p with
      | none => rfl
      | some y =>
        dsimp only
        have hne : y ≠ x := fun heq => hx ⟨p, heq ▸ hp⟩
        rw [if_neg hne]
        exact ih (succ p)
  exact hfrom n start

/-- **Deletion** of an element from a table with an empty slot. -/
theorem erase_spec [DecidableEq α] (h : Probing ideal table) {x : α} (hx : Mem table x)
    (hempty : ∃ slot, table slot = none) (hn : 1 < n) :
    Probing ideal (erase ideal (ideal x) x table) ∧
      ∀ y, Mem (erase ideal (ideal x) x table) y ↔ Mem table y ∧ y ≠ x := by
  obtain ⟨slot, hslot⟩ := hx
  obtain ⟨free, hfree⟩ := hempty
  have heq : erase ideal (ideal x) x table = shift ideal n slot (succ slot) table :=
    eraseFrom_eq h hslot n (ideal x) (by simp) (by
      have := gap_lt (ideal x) slot
      omega)
  have hone := gap_one hn slot
  have hne : slot ≠ free := by
    rintro rfl
    rw [hslot] at hfree
    cases hfree
  have hshifting : Shifting ideal table slot (succ slot) := by
    refine ⟨fun s y hs hy p hp => ?_, fun s s' y _ _ => h.once s s' y, fun heq => ?_⟩
    · by_cases hps : p = slot
      · subst hps
        refine .inr ⟨rfl, ?_⟩
        rw [hone]
        exact Nat.one_le_iff_ne_zero.mpr fun heq => hs (gap_eq_zero.mp heq).symm
      · exact .inl ⟨hps, h.reach s y hy p hp⟩
    · rw [← heq, gap_self] at hone
      cases hone
  have hpos : gap slot free ≠ 0 := fun heq => hne (gap_eq_zero.mp heq)
  have hlt := gap_lt slot free
  obtain ⟨hprobing, hmem⟩ := shift_spec hn n slot (succ slot) table hshifting hfree hne (by omega) (by omega)
  rw [heq]
  refine ⟨hprobing, fun y => (hmem y).trans ?_⟩
  constructor
  · rintro ⟨s, hs, hy⟩
    refine ⟨⟨s, hy⟩, ?_⟩
    rintro rfl
    exact hs (h.once s slot y hy hslot)
  · rintro ⟨⟨s, hy⟩, hne⟩
    refine ⟨s, ?_, hy⟩
    rintro rfl
    rw [hslot] at hy
    cases hy
    exact hne rfl

end Library.LinearProbing
