import Mathlib.Data.List.Nodup
import Mathlib.Logic.Function.Basic

/-!
# `Library.IntrusiveList` — doubly linked lists through the nodes of their elements

A list whose links are stored with its elements, between two ends that a sentinel or a head pointer holds. `Links`
is the memory as the pointer code reads and writes it; `Represents` says which list it holds, and every operation
is shown to be the operation on lists of the same name. A cursor into such a list stands for the elements from it
on (`fromCursor`), and stays one when it is moved past an element that is unlinked.
-/

namespace Library

/-- The two links of an element; `none` is the end of the list. -/
structure ListNode (α : Type*) where
  previous : Option α
  next : Option α

/-- The ends of a list, and the links of every element; an element outside the list has none. -/
structure Links (α : Type*) where
  first : Option α
  last : Option α
  node : α → Option (ListNode α)

namespace Links

variable {α : Type*}

/-! ## The pointer code -/

def empty : Links α := { first := none, last := none, node := fun _ => none }

def linked (links : Links α) (a : α) : Bool := (links.node a).isSome

/-- The successor that is read through an element; one outside the list has none. -/
def next (links : Links α) (a : α) : Option α := (links.node a).bind (·.next)

section

variable [DecidableEq α] (links : Links α) (a b : α) (target : Option α)

def setNode (node : Option (ListNode α)) : Links α :=
  { links with node := fun b => if b = a then node else links.node b }

/-- Writes the successor of an element, or of the end in front of the first one. -/
def setNext : Option α → Option α → Links α
  | none, target => { links with first := target }
  | some a, target => links.setNode a ((links.node a).map ({ · with next := target }))

/-- Writes the predecessor of an element, or of the end behind the last one. -/
def setPrevious : Option α → Option α → Links α
  | none, target => { links with last := target }
  | some a, target => links.setNode a ((links.node a).map ({ · with previous := target }))

def pushFront : Links α :=
  ((links.setNode a (some ⟨none, links.first⟩)).setPrevious links.first (some a)).setNext none (some a)

def pushBack : Links α :=
  ((links.setNode a (some ⟨links.last, none⟩)).setNext links.last (some a)).setPrevious none (some a)

def unlink : Links α :=
  match links.node a with
  | none => links
  | some ⟨previous, next⟩ => ((links.setNext previous next).setPrevious next previous).setNode a none

@[simp] theorem first_setNode (node : Option (ListNode α)) : (links.setNode a node).first = links.first := rfl

@[simp] theorem last_setNode (node : Option (ListNode α)) : (links.setNode a node).last = links.last := rfl

@[simp] theorem node_setNode (node : Option (ListNode α)) :
    (links.setNode a node).node b = if b = a then node else links.node b := rfl

@[simp] theorem first_setNext (place : Option α) :
    (links.setNext place target).first = if place = none then target else links.first := by
  cases place <;> rfl

@[simp] theorem last_setNext (place : Option α) : (links.setNext place target).last = links.last := by
  cases place <;> rfl

@[simp] theorem node_setNext (place : Option α) : (links.setNext place target).node b =
    if place = some b then (links.node b).map ({ · with next := target }) else links.node b := by
  cases place with
  | none => rfl
  | some a =>
    by_cases hb : b = a
    · simp [setNext, hb]
    · simp [setNext, hb, Ne.symm hb]

@[simp] theorem first_setPrevious (place : Option α) : (links.setPrevious place target).first = links.first := by
  cases place <;> rfl

@[simp] theorem last_setPrevious (place : Option α) :
    (links.setPrevious place target).last = if place = none then target else links.last := by
  cases place <;> rfl

@[simp] theorem node_setPrevious (place : Option α) : (links.setPrevious place target).node b =
    if place = some b then (links.node b).map ({ · with previous := target }) else links.node b := by
  cases place with
  | none => rfl
  | some a =>
    by_cases hb : b = a
    · simp [setPrevious, hb]
    · simp [setPrevious, hb, Ne.symm hb]

end

/-! ## The list that is held -/

structure Represents (links : Links α) (l : List α) : Prop where
  nodup : l.Nodup
  first : links.first = l.head?
  last : links.last = l.getLast?
  absent : ∀ a, a ∉ l → links.node a = none
  present : ∀ front a back, l = front ++ a :: back → links.node a = some ⟨front.getLast?, back.head?⟩

theorem represents_empty : (empty : Links α).Represents [] where
  nodup := List.nodup_nil
  first := rfl
  last := rfl
  absent _ _ := rfl
  present front a back h := by simp at h

namespace Represents

variable {links : Links α} {l : List α} {a : α}

theorem linked_iff (h : links.Represents l) : links.linked a = true ↔ a ∈ l := by
  constructor
  · intro hlinked
    by_contra habsent
    rw [linked, h.absent a habsent] at hlinked
    cases hlinked
  · intro hmem
    obtain ⟨front, back, hl⟩ := List.append_of_mem hmem
    rw [linked, h.present front a back hl]
    rfl

theorem next_eq (h : links.Represents l) {front back : List α} (hl : l = front ++ a :: back) :
    links.next a = back.head? := by
  rw [next, h.present front a back hl]
  rfl

end Represents

/-! ## Both directions -/

/-- The list read from its other end. -/
def reverse (links : Links α) : Links α :=
  { first := links.last, last := links.first,
    node := fun a => (links.node a).map fun node => ⟨node.next, node.previous⟩ }

@[ext] theorem ext {links links' : Links α} (hfirst : links.first = links'.first) (hlast : links.last = links'.last)
    (hnode : ∀ a, links.node a = links'.node a) : links = links' := by
  cases links
  cases links'
  exact mk.injEq .. ▸ ⟨hfirst, hlast, funext hnode⟩

theorem reverse_reverse (links : Links α) : links.reverse.reverse = links := by
  ext a : 1
  · rfl
  · rfl
  · show ((links.node a).map _).map _ = _
    cases links.node a <;> rfl

section

variable [DecidableEq α] (links : Links α) (a : α) (place target : Option α)

theorem reverse_setNode (node : Option (ListNode α)) :
    (links.setNode a node).reverse = links.reverse.setNode a (node.map fun node => ⟨node.next, node.previous⟩) := by
  ext b : 1
  · rfl
  · rfl
  · show Option.map _ _ = _
    rw [node_setNode, node_setNode, apply_ite (Option.map _)]
    rfl

theorem reverse_setNext : (links.setNext place target).reverse = links.reverse.setPrevious place target := by
  cases place with
  | none => rfl
  | some a =>
    rw [setNext, reverse_setNode, setPrevious]
    show setNode _ _ (((links.node a).map _).map _) = setNode _ _ (((links.node a).map _).map _)
    rw [Option.map_map, Option.map_map]
    rfl

theorem reverse_setPrevious : (links.setPrevious place target).reverse = links.reverse.setNext place target := by
  rw [← reverse_reverse (links.reverse.setNext place target), reverse_setNext, reverse_reverse]

theorem pushBack_eq : links.pushBack a = (links.reverse.pushFront a).reverse := by
  rw [pushFront, reverse_setNext, reverse_setPrevious, reverse_setNode, reverse_reverse]
  rfl

end

theorem Represents.reverse {links : Links α} {l : List α} (h : links.Represents l) :
    links.reverse.Represents l.reverse where
  nodup := List.nodup_reverse.mpr h.nodup
  first := by rw [List.head?_reverse]; exact h.last
  last := by rw [List.getLast?_reverse]; exact h.first
  absent a ha := by
    show (links.node a).map _ = none
    rw [h.absent a (mt List.mem_reverse.mpr ha)]
    rfl
  present front a back hl := by
    have hl' : l = back.reverse ++ a :: front.reverse := by
      rw [← List.reverse_reverse l, hl]
      simp
    show (links.node a).map _ = _
    rw [h.present _ _ _ hl', List.getLast?_reverse, List.head?_reverse]
    rfl

/-! ## Adding and removing -/

namespace Represents

variable [DecidableEq α] {links : Links α} {l : List α} {a : α}

theorem pushFront (h : links.Represents l) (ha : a ∉ l) : (links.pushFront a).Represents (a :: l) := by
  have hfirst : links.first = l.head? := h.first
  have hnode : ∀ c, c ≠ a → (links.pushFront a).node c =
      if l.head? = some c then (links.node c).map ({ · with previous := some a }) else links.node c := by
    intro c hc
    simp [Links.pushFront, hfirst, hc]
  refine ⟨List.nodup_cons.mpr ⟨ha, h.nodup⟩, by simp [Links.pushFront], ?_, fun c hc => ?_, fun front c back hl => ?_⟩
  · cases l with
    | nil => simp [Links.pushFront, hfirst]
    | cons b t => simpa [Links.pushFront, hfirst] using h.last
  · rw [List.mem_cons, not_or] at hc
    rw [hnode c hc.1, h.absent c hc.2]
    split <;> rfl
  · cases front with
    | nil =>
      obtain ⟨rfl, rfl⟩ := List.cons.inj hl
      have hhead : l.head? ≠ some a := fun heq => ha (List.mem_of_head? heq)
      simp [Links.pushFront, hfirst, hhead]
    | cons d front =>
      obtain ⟨rfl, rfl⟩ := List.cons.inj hl
      rw [hnode c (fun heq => ha (by simp [heq]))]
      cases front with
      | nil =>
        rw [h.present [] c back rfl]
        simp
      | cons e front =>
        have hce : e ≠ c := fun heq => (List.nodup_cons.mp h.nodup).1 (by simp [heq])
        rw [h.present (e :: front) c back rfl]
        simp [hce]

theorem pushBack (h : links.Represents l) (ha : a ∉ l) : (links.pushBack a).Represents (l ++ [a]) := by
  have hpush := (h.reverse.pushFront (mt List.mem_reverse.mp ha)).reverse
  rwa [← pushBack_eq, List.reverse_cons, List.reverse_reverse] at hpush

end Represents

theorem not_mem_of_nodup {front back : List α} {a : α} (h : (front ++ a :: back).Nodup) : a ∉ front ∧ a ∉ back := by
  have hnodup := List.nodup_middle.mp h
  rw [List.nodup_cons, List.mem_append, not_or] at hnodup
  exact hnodup.1

theorem erase_middle [DecidableEq α] {front back : List α} {a : α} (ha : a ∉ front) :
    (front ++ a :: back).erase a = front ++ back := by
  rw [List.erase_append_right _ ha, List.erase_cons_head]

namespace Represents

variable [DecidableEq α] {links : Links α} {l : List α}

/-- The neighbours of an element that is unlinked point past it. -/
theorem unlink_middle {front back : List α} {a : α} (h : links.Represents (front ++ a :: back)) :
    (links.unlink a).Represents (front ++ back) := by
  have hnodup := h.nodup
  have hnode := h.present front a back rfl
  have hother : ∀ c, c ≠ a → (links.unlink a).node c = (links.node c).map fun node =>
      ⟨if back.head? = some c then front.getLast? else node.previous,
        if front.getLast? = some c then back.head? else node.next⟩ := by
    intro c hc
    simp only [Links.unlink, hnode, node_setNode, if_neg hc, node_setPrevious, node_setNext]
    cases links.node c <;> split <;> split <;> rfl
  refine ⟨(List.nodup_cons.mp (List.nodup_middle.mp hnodup)).2, ?_, ?_, fun c hc => ?_, fun f c b hl => ?_⟩
  · have hfirst := h.first
    cases front with
    | nil => simp [Links.unlink, hnode]
    | cons d front => simpa [Links.unlink, hnode] using hfirst
  · have hlast := h.last
    cases back with
    | nil => simp [Links.unlink, hnode]
    | cons d back => simpa [Links.unlink, hnode] using hlast
  · by_cases hca : c = a
    · simp [Links.unlink, hnode, hca]
    · rw [hother c hca, h.absent c (by simp_all)]
      rfl
  · have hca : c ≠ a := fun heq => by
      have hmem : a ∈ front ++ back := by rw [hl, heq]; simp
      exact (List.nodup_cons.mp (List.nodup_middle.mp hnodup)).1 hmem
    rw [hother c hca]
    obtain ⟨m, rfl, rfl⟩ | ⟨m, rfl, hback⟩ := List.append_eq_append_iff.mp hl
    · -- behind the element that is removed
      have hc : c ∉ front ++ a :: m := (not_mem_of_nodup (by simpa using hnodup)).1
      have hfront : front.getLast? ≠ some c := fun heq => hc (by simp [List.mem_of_getLast? heq])
      rw [h.present (front ++ a :: m) c b (by simp)]
      cases m with
      | nil => simp [hfront]
      | cons d m =>
        have hdc : d ≠ c := fun heq => hc (by simp [heq])
        simp [hfront, hdc]
    · cases m with
      | nil =>
        obtain rfl : back = c :: b := hback.symm
        have hc : c ∉ f ++ [a] := (not_mem_of_nodup (by simpa using hnodup : (f ++ [a] ++ c :: b).Nodup)).1
        have hfront : f.getLast? ≠ some c := fun heq => hc (by simp [List.mem_of_getLast? heq])
        rw [h.present (f ++ [a]) c b (by simp)]
        simp [hfront]
      | cons d m =>
        -- in front of it
        obtain ⟨rfl, rfl⟩ := List.cons.inj hback
        have hc : c ∉ m ++ a :: back := 
          (not_mem_of_nodup (by simpa using hnodup : (f ++ c :: (m ++ a :: back)).Nodup)).2
        have hhead : back.head? ≠ some c := fun heq => hc (by simp [List.mem_of_head? heq])
        rw [h.present f c (m ++ a :: back) (by simp)]
        cases m with
        | nil => simp [hhead]
        | cons e m =>
          have hlast : (e :: m).getLast? ≠ some c := fun heq => hc (by
            rw [List.mem_append]
            exact .inl (List.mem_of_getLast? heq))
          simp [hhead, List.getLast?_append, hlast]

theorem unlink (h : links.Represents l) (a : α) : (links.unlink a).Represents (l.erase a) := by
  by_cases hmem : a ∈ l
  · obtain ⟨front, back, rfl⟩ := List.append_of_mem hmem
    rw [erase_middle (not_mem_of_nodup h.nodup).1]
    exact h.unlink_middle
  · rw [Links.unlink, h.absent a hmem, List.erase_of_not_mem hmem]
    exact h

end Represents

end Links

/-! ## Cursors -/

/-- What is left of a list from a cursor on. -/
def fromCursor {α : Type*} [DecidableEq α] (l : List α) : Option α → List α
  | none => []
  | some a => l.dropWhile (· ≠ a)

/-- A cursor at a member, or at the end. -/
def IsCursor {α : Type*} (l : List α) (cursor : Option α) : Prop := ∀ a, cursor = some a → a ∈ l

theorem isCursor_none {α : Type*} (l : List α) : IsCursor l none := nofun

section

variable {α : Type*} [DecidableEq α] {l : List α} {a : α} {cursor : Option α}

theorem fromCursor_middle {front back : List α} (ha : a ∉ front) :
    fromCursor (front ++ a :: back) (some a) = a :: back := by
  rw [fromCursor, List.dropWhile_append_of_pos]
  · simp
  · intro b hb
    exact decide_eq_true fun heq => ha (heq ▸ hb)

theorem fromCursor_head? (l : List α) : fromCursor l l.head? = l := by
  cases l with
  | nil => rfl
  | cons a l => simp [fromCursor]

theorem fromCursor_sublist (l : List α) (cursor : Option α) : (fromCursor l cursor).Sublist l := by
  cases cursor with
  | none => exact List.nil_sublist l
  | some a => exact List.dropWhile_sublist _

/-- An element in front is behind every cursor. -/
theorem fromCursor_cons (ha : a ∉ l) (hcursor : IsCursor l cursor) :
    fromCursor (a :: l) cursor = fromCursor l cursor := by
  cases cursor with
  | none => rfl
  | some b =>
    have hne : a ≠ b := fun heq => ha (heq ▸ hcursor b rfl)
    simp [fromCursor, hne]

end

/-! ## Lists with their elements -/

/-- The pointers of a list, and the elements it has had added and not removed. -/
structure IntrusiveList (α : Type*) where
  links : Links α
  members : List α

namespace IntrusiveList

variable {α : Type*}

def empty : IntrusiveList α := { links := .empty, members := [] }

def first (list : IntrusiveList α) : Option α := list.links.first

def next (list : IntrusiveList α) (a : α) : Option α := list.links.next a

def linked (list : IntrusiveList α) (a : α) : Bool := list.links.linked a

/-- The elements that are met from a cursor on, as far as the list can reach. -/
def walkFrom (list : IntrusiveList α) : Nat → Option α → List α
  | 0, _ => []
  | _, none => []
  | steps + 1, some a => a :: list.walkFrom steps (list.next a)

def walk (list : IntrusiveList α) : List α := list.walkFrom list.members.length list.first

section

variable [DecidableEq α] (list : IntrusiveList α) (a : α)

def pushFront : IntrusiveList α := { links := list.links.pushFront a, members := a :: list.members }

def pushBack : IntrusiveList α := { links := list.links.pushBack a, members := list.members ++ [a] }

def unlink : IntrusiveList α := { links := list.links.unlink a, members := list.members.erase a }

/-- Where a cursor goes when an element is unlinked. -/
def moveCursor (cursor : Option α) : Option α := if cursor = some a then list.next a else cursor

@[simp] theorem members_pushFront : (list.pushFront a).members = a :: list.members := rfl

@[simp] theorem members_pushBack : (list.pushBack a).members = list.members ++ [a] := rfl

@[simp] theorem members_unlink : (list.unlink a).members = list.members.erase a := rfl

end

/-- The pointers hold the elements. -/
def Sound (list : IntrusiveList α) : Prop := list.links.Represents list.members

theorem sound_empty : (empty : IntrusiveList α).Sound := Links.represents_empty

namespace Sound

variable {list : IntrusiveList α} {a : α} {cursor : Option α}

section

variable (h : list.Sound)
include h

theorem nodup : list.members.Nodup := Links.Represents.nodup h

theorem linked_iff : list.linked a = true ↔ a ∈ list.members := Links.Represents.linked_iff h

theorem first_eq : list.first = list.members.head? := Links.Represents.first h

theorem next_eq {front back : List α} (hl : list.members = front ++ a :: back) :
    list.next a = back.head? := Links.Represents.next_eq h hl

theorem isCursor_first : IsCursor list.members list.first := by
  intro a ha
  rw [h.first_eq] at ha
  exact List.mem_of_head? ha

theorem isCursor_next (a : α) : IsCursor list.members (list.next a) := by
  intro b hb
  by_cases hmem : a ∈ list.members
  · obtain ⟨front, back, hl⟩ := List.append_of_mem hmem
    rw [h.next_eq hl] at hb
    rw [hl]
    simp [List.mem_of_head? hb]
  · rw [next, Links.next, Links.Represents.absent h a hmem] at hb
    cases hb

/-- The walk meets the elements from the cursor on. -/
theorem walkFrom_eq {front back : List α} (hl : list.members = front ++ back) {steps : Nat}
    (hsteps : back.length ≤ steps) : list.walkFrom steps back.head? = back := by
  induction back generalizing front steps with
  | nil => cases steps <;> rfl
  | cons a back ih =>
    obtain ⟨steps, rfl⟩ := Nat.exists_eq_add_of_le' (Nat.lt_of_lt_of_le (Nat.succ_pos back.length) hsteps)
    show a :: list.walkFrom steps (list.next a) = a :: back
    rw [h.next_eq hl, ih (by simpa using hl : list.members = front ++ [a] ++ back) (Nat.le_of_succ_le_succ hsteps)]

theorem walk_eq : list.walk = list.members := by
  rw [walk, h.first_eq, h.walkFrom_eq (List.nil_append _).symm (Nat.le_refl _)]

end

variable [DecidableEq α]

section

variable (h : list.Sound)
include h

theorem pushFront (ha : a ∉ list.members) : (list.pushFront a).Sound := Links.Represents.pushFront h ha

theorem pushBack (ha : a ∉ list.members) : (list.pushBack a).Sound := Links.Represents.pushBack h ha

theorem unlink (a : α) : (list.unlink a).Sound := Links.Represents.unlink h a

theorem fromCursor_first : fromCursor list.members list.first = list.members := by
  rw [h.first_eq, fromCursor_head?]

/-- A step of a cursor. -/
theorem fromCursor_next (ha : a ∈ list.members) :
    fromCursor list.members (some a) = a :: fromCursor list.members (list.next a) := by
  obtain ⟨front, back, hl⟩ := List.append_of_mem ha
  have hnodup := h.nodup
  rw [h.next_eq hl, hl, fromCursor_middle (Links.not_mem_of_nodup (hl ▸ hnodup)).1]
  rw [hl] at hnodup
  cases back with
  | nil => rfl
  | cons b back =>
    have hb : b ∉ front ++ [a] :=
      (Links.not_mem_of_nodup (by simpa using hnodup : (front ++ [a] ++ b :: back).Nodup)).1
    have hrest : fromCursor (front ++ [a] ++ b :: back) (some b) = b :: back := fromCursor_middle hb
    rw [List.append_assoc] at hrest
    exact congrArg (a :: ·) hrest.symm

/-- **A cursor is moved past the element that is unlinked**, and stands for the others it stood for. -/
theorem fromCursor_unlink (hcursor : IsCursor list.members cursor) (b : α) :
    fromCursor (list.members.erase b) (list.moveCursor b cursor) = (fromCursor list.members cursor).erase b := by
  cases cursor with
  | none => rfl
  | some a =>
    obtain ⟨front, back, hl⟩ := List.append_of_mem (hcursor a rfl)
    have hnodup := h.nodup
    rw [hl] at hnodup
    have ha := Links.not_mem_of_nodup hnodup
    by_cases hab : a = b
    · subst hab
      rw [moveCursor, if_pos rfl, h.next_eq hl, hl, Links.erase_middle ha.1, fromCursor_middle ha.1,
        List.erase_cons_head]
      cases back with
      | nil => rfl
      | cons c back =>
        have hc : c ∉ front ++ [a] :=
          (Links.not_mem_of_nodup (by simpa using hnodup : (front ++ [a] ++ c :: back).Nodup)).1
        exact fromCursor_middle fun hmem => hc (List.mem_append_left _ hmem)
    · rw [moveCursor, if_neg (fun heq => hab (Option.some.inj heq)), hl, fromCursor_middle ha.1,
        List.erase_cons_tail (by simpa using hab)]
      by_cases hb : b ∈ front
      · have hback : b ∉ back := fun hmem => by
          have hdisjoint := (List.nodup_append.mp hnodup).2.2 b hb b (List.mem_cons_of_mem a hmem)
          exact hdisjoint rfl
        rw [List.erase_append_left _ hb, fromCursor_middle fun hmem => ha.1 (List.mem_of_mem_erase hmem),
          List.erase_of_not_mem hback]
      · rw [List.erase_append_right _ hb, List.erase_cons_tail (by simpa using hab), fromCursor_middle ha.1]

theorem isCursor_unlink (hcursor : IsCursor list.members cursor) (b : α) :
    IsCursor (list.members.erase b) (list.moveCursor b cursor) := by
  intro c hc
  rw [moveCursor] at hc
  split at hc
  · rename_i heq
    obtain ⟨front, back, hl⟩ := List.append_of_mem (hcursor b heq)
    have hnodup := h.nodup
    rw [hl] at hnodup
    rw [h.next_eq hl] at hc
    rw [hl, Links.erase_middle (Links.not_mem_of_nodup hnodup).1]
    exact List.mem_append_right _ (List.mem_of_head? hc)
  · rename_i hne
    exact (List.mem_erase_of_ne fun heq : c = b => hne (heq ▸ hc)).mpr (hcursor c hc)

end

end Sound

end IntrusiveList

end Library
