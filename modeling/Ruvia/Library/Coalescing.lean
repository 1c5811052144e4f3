import Mathlib.Data.List.Pairwise
import Mathlib.Order.Interval.Set.Basic
import Mathlib.Order.MinMax

/-!
# `Library.Coalescing` — half-open stretches of a line and their union

A stretch holds the points from its `start` up to its `stop`. `Coalesced parts stretches` says that `stretches` is the
union of `parts` cut into as few pieces as possible, each in the place of the earliest part it covers; there is only
one such list (`Coalesced.unique`). `absorb` adds one more part: it merges what the part touches and keeps the rest
(`Coalesced.absorb`).
-/

namespace Library

/-- The points from `start` up to, and without, `stop`. -/
structure Stretch (α : Type*) where
  start : α
  stop : α
  deriving DecidableEq, Repr

namespace Stretch

variable {α : Type*} [LinearOrder α]

def points (a : Stretch α) : Set α := Set.Ico a.start a.stop

/-- Overlapping or adjacent. -/
def Touches (a b : Stretch α) : Prop := a.start ≤ b.stop ∧ b.start ≤ a.stop

instance (a b : Stretch α) : Decidable (a.Touches b) := inferInstanceAs (Decidable (_ ∧ _))

def Within (a b : Stretch α) : Prop := b.start ≤ a.start ∧ a.stop ≤ b.stop

instance (a b : Stretch α) : Decidable (a.Within b) := inferInstanceAs (Decidable (_ ∧ _))

/-- The least stretch that covers both. -/
def hull (a b : Stretch α) : Stretch α := ⟨min a.start b.start, max a.stop b.stop⟩

def Nonempty (a : Stretch α) : Prop := a.start < a.stop

variable {a b c : Stretch α} {x : α}

theorem mem_points : x ∈ a.points ↔ a.start ≤ x ∧ x < a.stop := Iff.rfl

theorem Nonempty.start_mem (h : a.Nonempty) : a.start ∈ a.points := ⟨le_rfl, h⟩

theorem Touches.symm (h : a.Touches b) : b.Touches a := ⟨h.2, h.1⟩

theorem Within.refl (a : Stretch α) : a.Within a := ⟨le_rfl, le_rfl⟩

theorem Within.trans (h : a.Within b) (h' : b.Within c) : a.Within c := ⟨h'.1.trans h.1, h.2.trans h'.2⟩

theorem Within.antisymm (h : a.Within b) (h' : b.Within a) : a = b := by
  have hstart := le_antisymm h'.1 h.1
  have hstop := le_antisymm h.2 h'.2
  cases a
  cases b
  simp_all

theorem Within.mem (h : a.Within b) (hx : x ∈ a.points) : x ∈ b.points := ⟨h.1.trans hx.1, hx.2.trans_le h.2⟩

theorem touches_of_mem (ha : x ∈ a.points) (hb : x ∈ b.points) : a.Touches b :=
  ⟨ha.1.trans hb.2.le, hb.1.trans ha.2.le⟩

theorem Within.touches (h : a.Within b) (ha : a.Nonempty) : a.Touches b :=
  touches_of_mem ha.start_mem (h.mem ha.start_mem)

theorem Touches.of_within (h : a.Touches b) (hb : b.Within c) : a.Touches c :=
  ⟨h.1.trans hb.2, hb.1.trans h.2⟩

theorem within_hull_left : a.Within (a.hull b) := ⟨min_le_left _ _, le_max_left _ _⟩

theorem within_hull_right : b.Within (a.hull b) := ⟨min_le_right _ _, le_max_right _ _⟩

/-- The hull of two stretches that touch has no other points. -/
theorem mem_hull (h : a.Touches b) : x ∈ (a.hull b).points ↔ x ∈ a.points ∨ x ∈ b.points := by
  simp only [hull, mem_points, min_le_iff, lt_max_iff]
  constructor
  · rintro ⟨hlow, hhigh⟩
    rcases le_total a.start x with ha | ha
    · rcases lt_or_ge x a.stop with ha' | ha'
      · exact .inl ⟨ha, ha'⟩
      · exact .inr ⟨h.2.trans ha', hhigh.resolve_left ha'.not_gt⟩
    · rcases lt_or_ge x b.stop with hb | hb
      · rcases hlow with hlow | hlow
        · rcases lt_or_ge x a.stop with ha' | ha'
          · exact .inl ⟨hlow, ha'⟩
          · exact .inr ⟨h.2.trans ha', hb⟩
        · exact .inr ⟨hlow, hb⟩
      · exact .inl ⟨h.1.trans hb, hhigh.resolve_right hb.not_gt⟩
  · rintro (⟨hlow, hhigh⟩ | ⟨hlow, hhigh⟩)
    · exact ⟨.inl hlow, .inl hhigh⟩
    · exact ⟨.inr hlow, .inr hhigh⟩

/-- A stretch that touches `new` may be merged into what has grown from `new`: a third one that it does not touch
meets the result only where it meets `new`. -/
theorem touches_hull_iff {new grown : Stretch α} (hc : c.Nonempty) (hnew : new.Within grown) (hb : b.Touches new)
    (hapart : ¬b.Touches c) (h : c.Touches grown ↔ c.Touches new) : c.Touches (grown.hull b) ↔ c.Touches new := by
  refine ⟨fun htouch => h.mp ?_, fun htouch => (h.mpr htouch).of_within within_hull_left⟩
  obtain ⟨hlow, hhigh⟩ := htouch
  rw [hull, le_max_iff] at hlow
  rw [hull, min_le_iff] at hhigh
  by_contra hnot
  rcases hlow with hlow | hlow
  · rcases hhigh with hhigh | hhigh
    · exact hnot ⟨hlow, hhigh⟩
    · -- `c` lies before `grown`, so before the end of `b`
      have hbefore : c.stop < grown.start := lt_of_not_ge fun hge => hnot ⟨hlow, hge⟩
      have hstop : c.start ≤ b.stop := hc.le.trans (hbefore.le.trans (hnew.1.trans hb.2))
      exact hapart ⟨hhigh, hstop⟩
  · rcases hhigh with hhigh | hhigh
    · -- `c` lies behind `grown`, so behind the start of `b`
      have hbehind : grown.stop < c.start := lt_of_not_ge fun hge => hnot ⟨hge, hhigh⟩
      have hstart : b.start ≤ c.stop := hb.1.trans (hnew.2.trans (hbehind.le.trans hc.le))
      exact hapart ⟨hstart, hlow⟩
    · exact hapart ⟨hhigh, hlow⟩

end Stretch

open Stretch

variable {α : Type*} [LinearOrder α]

/-- The position of the first part that `a` covers. -/
def firstWithin (parts : List (Stretch α)) (a : Stretch α) : Nat := parts.findIdx fun part => part.Within a

/-- `stretches` is the union of `parts` in nonempty pieces that do not touch each other, in the order of the first
part of each. -/
structure Coalesced (parts stretches : List (Stretch α)) : Prop where
  nonempty : ∀ a ∈ stretches, a.Nonempty
  apart : stretches.Pairwise fun a b => ¬a.Touches b
  union : ∀ x, (∃ a ∈ stretches, x ∈ a.points) ↔ ∃ part ∈ parts, x ∈ part.points
  ordered : stretches.Pairwise fun a b => firstWithin parts a < firstWithin parts b

theorem Coalesced.nil : Coalesced ([] : List (Stretch α)) [] :=
  ⟨fun _ h => absurd h List.not_mem_nil, List.Pairwise.nil, by simp, List.Pairwise.nil⟩

/-- The pieces of parts of a representation lie inside it. -/
theorem Coalesced.stop_le {parts stretches : List (Stretch Nat)} {limit : Nat} (h : Coalesced parts stretches)
    (hparts : ∀ p ∈ parts, p.stop ≤ limit) {a : Stretch Nat} (ha : a ∈ stretches) : a.stop ≤ limit := by
  have hne : a.start < a.stop := h.nonempty a ha
  have hlast : a.stop - 1 ∈ a.points := mem_points.mpr ⟨by omega, by omega⟩
  obtain ⟨p, hp, hmem⟩ := (h.union _).mp ⟨a, ha, hlast⟩
  have hlt : a.stop - 1 < p.stop := hmem.2
  have hle := hparts p hp
  omega

/-! ## Only one list is the coalesced one -/

section

variable {parts stretches others : List (Stretch α)} {a b p : Stretch α} {x : α}

section

variable (h : stretches.Pairwise fun a b => ¬a.Touches b)
include h

theorem eq_of_touches (ha : a ∈ stretches) (hb : b ∈ stretches) (htouch : a.Touches b) : a = b := by
  have : Std.Symm fun a b : Stretch α => ¬a.Touches b := ⟨fun _ _ hnot htouch => hnot htouch.symm⟩
  by_contra hne
  exact h.forall ha hb hne htouch

/-- Pieces that do not touch have no stretch of points in common but inside one of them. -/
theorem within_of_covered
    (hp : ∀ x ∈ p.points, ∃ a ∈ stretches, x ∈ a.points) (ha : a ∈ stretches) (hxp : x ∈ p.points)
    (hxa : x ∈ a.points) : p.Within a := by
  have hstop : ∀ b ∈ stretches, ∀ y ∈ p.points, y ∈ b.points → p.stop ≤ b.stop := by
    intro b hb y hyp hyb
    by_contra hlt
    rw [not_le] at hlt
    obtain ⟨c, hc, hmem⟩ := hp b.stop ⟨hyp.1.trans hyb.2.le, hlt⟩
    have htouch : b.Touches c := ⟨(hyb.1.trans hyb.2.le).trans hmem.2.le, hmem.1⟩
    rw [← eq_of_touches h hb hc htouch] at hmem
    exact absurd hmem.2 (lt_irrefl _)
  refine ⟨?_, hstop a ha x hxp hxa⟩
  by_contra hlt
  rw [not_le] at hlt
  have hstart : p.start ∈ p.points := ⟨le_rfl, hxp.1.trans_lt hxp.2⟩
  obtain ⟨c, hc, hmem⟩ := hp p.start hstart
  -- the piece around the start of `p` reaches as far as `p` does, so it meets `a`
  have hreach := hstop c hc p.start hstart hmem
  have htouch : a.Touches c := ⟨hxa.1.trans (hxp.2.le.trans hreach), hmem.1.trans (hxp.1.trans hxa.2.le)⟩
  rw [← eq_of_touches h ha hc htouch] at hmem
  exact absurd hmem.1 hlt.not_ge

end

variable (h : Coalesced parts stretches)

include h

theorem Coalesced.part_within (hp : p ∈ parts) (ha : a ∈ stretches) (hxp : x ∈ p.points) (hxa : x ∈ a.points) :
    p.Within a :=
  within_of_covered h.apart (fun y hy => (h.union y).mpr ⟨p, hp, hy⟩) ha hxp hxa

/-- Every part lies inside one of the pieces. -/
theorem Coalesced.exists_within (hp : p ∈ parts) (hne : p.Nonempty) : ∃ a ∈ stretches, p.Within a := by
  obtain ⟨a, ha, hmem⟩ := (h.union p.start).mpr ⟨p, hp, hne.start_mem⟩
  exact ⟨a, ha, h.part_within hp ha hne.start_mem hmem⟩

theorem Coalesced.firstWithin_lt (ha : a ∈ stretches) : firstWithin parts a < parts.length := by
  obtain ⟨p, hp, hmem⟩ := (h.union a.start).mp ⟨a, ha, (h.nonempty a ha).start_mem⟩
  exact List.findIdx_lt_length_of_exists
    ⟨p, hp, decide_eq_true (h.part_within hp ha hmem (h.nonempty a ha).start_mem)⟩

theorem Coalesced.mem_of_mem (h' : Coalesced parts others) (ha : a ∈ stretches) : a ∈ others := by
  have hstart := (h.nonempty a ha).start_mem
  obtain ⟨b, hb, hmem⟩ := (h'.union a.start).mpr ((h.union a.start).mp ⟨a, ha, hstart⟩)
  have hab : a.Within b :=
    within_of_covered h'.apart (fun y hy => (h'.union y).mpr ((h.union y).mp ⟨a, ha, hy⟩)) hb hstart hmem
  have hba : b.Within a :=
    within_of_covered h.apart (fun y hy => (h.union y).mpr ((h'.union y).mp ⟨b, hb, hy⟩)) ha hmem hstart
  rwa [hab.antisymm hba]

theorem Coalesced.nodup : stretches.Nodup :=
  h.ordered.imp fun hlt heq => absurd hlt (by rw [heq]; exact lt_irrefl _)

/-- **The coalesced list** of some parts is unique. -/
theorem Coalesced.unique (h' : Coalesced parts others) : stretches = others := by
  have hperm : stretches.Perm others :=
    (List.perm_ext_iff_of_nodup h.nodup h'.nodup).mpr fun _ => ⟨h.mem_of_mem h', h'.mem_of_mem h⟩
  exact hperm.eq_of_pairwise (fun _ _ _ _ hlt hgt => absurd hlt hgt.not_gt) h.ordered h'.ordered

end

/-! ## One more part -/

/-- The hull of `grown` with all that is merged into it. -/
def hullAll (grown : Stretch α) (merged : List (Stretch α)) : Stretch α := merged.foldl hull grown

/-- One pass over the pieces: what touches the growing stretch is merged into it, the rest stays. -/
def gather (grown : Stretch α) : List (Stretch α) → Stretch α × List (Stretch α)
  | [] => (grown, [])
  | a :: rest =>
    if a.Touches grown then gather (grown.hull a) rest
    else ((gather grown rest).1, a :: (gather grown rest).2)

/-- Adds a part to the pieces: in the place of the first piece it touches, else behind them. -/
def absorb (new : Stretch α) : List (Stretch α) → List (Stretch α)
  | [] => [new]
  | a :: rest =>
    if a.Touches new then (gather (new.hull a) rest).1 :: (gather (new.hull a) rest).2 else a :: absorb new rest

section

variable {new grown t c : Stretch α} {merged rest stretches parts front back : List (Stretch α)} {x : α}

theorem within_hullAll : grown.Within (hullAll grown merged) := by
  induction merged generalizing grown with
  | nil => exact Within.refl _
  | cons a merged ih => exact within_hull_left.trans ih

theorem within_hullAll_of_mem (h : c ∈ merged) : c.Within (hullAll grown merged) := by
  induction merged generalizing grown with
  | nil => cases h
  | cons a merged ih =>
    rcases List.mem_cons.mp h with rfl | h
    · exact within_hull_right.trans within_hullAll
    · exact ih h

theorem mem_hullAll (h : ∀ a ∈ merged, a.Touches grown) :
    x ∈ (hullAll grown merged).points ↔ x ∈ grown.points ∨ ∃ a ∈ merged, x ∈ a.points := by
  induction merged generalizing grown with
  | nil => simp [hullAll]
  | cons a merged ih =>
    have hrest : ∀ b ∈ merged, b.Touches (grown.hull a) := fun b hb =>
      (h b (List.mem_cons_of_mem _ hb)).of_within within_hull_left
    rw [show hullAll grown (a :: merged) = hullAll (grown.hull a) merged from rfl, ih hrest,
      mem_hull (h a List.mem_cons_self).symm, or_assoc]
    simp only [List.mem_cons, exists_eq_or_imp]

/-- What is apart from the merged pieces touches their hull only where it touches `new`. -/
theorem touches_hullAll_iff (hc : c.Nonempty) (hnew : new.Within grown) (hmerged : ∀ a ∈ merged, a.Touches new)
    (hapart : ∀ a ∈ merged, ¬a.Touches c) (h : c.Touches grown ↔ c.Touches new) :
    c.Touches (hullAll grown merged) ↔ c.Touches new := by
  induction merged generalizing grown with
  | nil => exact h
  | cons a merged ih =>
    refine ih (hnew.trans within_hull_left) (fun b hb => hmerged b (List.mem_cons_of_mem _ hb))
      (fun b hb => hapart b (List.mem_cons_of_mem _ hb)) ?_
    exact touches_hull_iff hc hnew (hmerged a List.mem_cons_self) (hapart a List.mem_cons_self) h

/-- **One pass suffices**: the pass merges the pieces that touch the new part itself. -/
theorem gather_eq (hnew : new.Within grown) (hne : ∀ a ∈ rest, a.Nonempty)
    (hapart : rest.Pairwise fun a b => ¬a.Touches b) (h : ∀ a ∈ rest, a.Touches grown ↔ a.Touches new) :
    gather grown rest =
      (hullAll grown (rest.filter fun a => a.Touches new), rest.filter fun a => ¬a.Touches new) := by
  induction rest generalizing grown with
  | nil => rfl
  | cons a rest ih =>
    obtain ⟨ha, hrest⟩ := List.pairwise_cons.mp hapart
    have hne' : ∀ b ∈ rest, b.Nonempty := fun b hb => hne b (List.mem_cons_of_mem _ hb)
    have h' : ∀ b ∈ rest, b.Touches grown ↔ b.Touches new := fun b hb => h b (List.mem_cons_of_mem _ hb)
    by_cases htouch : a.Touches new
    · have hgrown : ∀ b ∈ rest, b.Touches (grown.hull a) ↔ b.Touches new := fun b hb =>
        touches_hull_iff (hne' b hb) hnew htouch (ha b hb) (h' b hb)
      rw [gather, if_pos ((h a List.mem_cons_self).mpr htouch), ih (hnew.trans within_hull_left) hne' hrest hgrown,
        List.filter_cons_of_pos (by simpa using htouch), List.filter_cons_of_neg (by simpa using htouch)]
      rfl
    · rw [gather, if_neg fun hgrown => htouch ((h a List.mem_cons_self).mp hgrown), ih hnew hne' hrest h',
        List.filter_cons_of_neg (by simpa using htouch), List.filter_cons_of_pos (by simpa using htouch)]

theorem length_gather_le : (gather grown rest).2.length ≤ rest.length := by
  induction rest generalizing grown with
  | nil => exact Nat.le_refl 0
  | cons a rest ih =>
    rw [gather]
    split
    · exact ih.trans (Nat.le_succ _)
    · exact Nat.succ_le_succ ih

/-- A part adds one piece at most. -/
theorem length_absorb_le : (absorb new stretches).length ≤ stretches.length + 1 := by
  induction stretches with
  | nil => exact Nat.le_refl 1
  | cons a rest ih =>
    rw [absorb]
    split
    · exact Nat.succ_le_succ (length_gather_le.trans (Nat.le_succ _))
    · exact Nat.succ_le_succ ih

/-- The piece that the new part ends up in. -/
def mergedWith (new : Stretch α) (stretches : List (Stretch α)) : Stretch α :=
  hullAll new (stretches.filter fun a => a.Touches new)

theorem absorb_of_apart (h : ∀ a ∈ stretches, ¬a.Touches new) : absorb new stretches = stretches ++ [new] := by
  induction stretches with
  | nil => rfl
  | cons a stretches ih =>
    rw [absorb, if_neg (h a List.mem_cons_self), ih fun b hb => h b (List.mem_cons_of_mem _ hb), List.cons_append]

theorem absorb_append (h : ∀ a ∈ front, ¬a.Touches new) : absorb new (front ++ rest) = front ++ absorb new rest := by
  induction front with
  | nil => rfl
  | cons a front ih =>
    rw [List.cons_append, absorb, if_neg (h a List.mem_cons_self), ih fun b hb => h b (List.mem_cons_of_mem _ hb),
      List.cons_append]

theorem filter_touches_append (h : ∀ a ∈ front, ¬a.Touches new) :
    ((front ++ rest).filter fun a => a.Touches new) = rest.filter fun a => a.Touches new := by
  rw [List.filter_append, List.filter_eq_nil_iff.mpr (by simpa using h), List.nil_append]

/-- The pieces that the new part does not touch keep their order around the one that it ends up in. -/
theorem absorb_split (hfront : ∀ a ∈ front, ¬a.Touches new) (ht : t.Touches new)
    (hne : ∀ a ∈ front ++ t :: back, a.Nonempty)
    (hapart : (front ++ t :: back).Pairwise fun a b => ¬a.Touches b) :
    absorb new (front ++ t :: back) =
      front ++ mergedWith new (front ++ t :: back) :: back.filter fun a => ¬a.Touches new := by
  obtain ⟨ht', hback⟩ := List.pairwise_cons.mp (List.pairwise_append.mp hapart).2.1
  have hne' : ∀ a ∈ back, a.Nonempty := fun a ha =>
    hne a (List.mem_append_right _ (List.mem_cons_of_mem _ ha))
  have hgrown : ∀ a ∈ back, a.Touches (new.hull t) ↔ a.Touches new := fun a ha =>
    touches_hull_iff (hne' a ha) (Within.refl _) ht (ht' a ha) Iff.rfl
  rw [absorb_append hfront, absorb, if_pos ht, gather_eq within_hull_left hne' hback hgrown, mergedWith,
    filter_touches_append hfront, List.filter_cons_of_pos (by simpa using ht)]
  rfl

/-- Either the new part touches nothing or there is a first piece that it touches. -/
theorem apart_or_split (new : Stretch α) (stretches : List (Stretch α)) :
    (∀ a ∈ stretches, ¬a.Touches new) ∨
      ∃ front t back, stretches = front ++ t :: back ∧ (∀ a ∈ front, ¬a.Touches new) ∧ t.Touches new := by
  cases hfind : stretches.find? fun a => a.Touches new with
  | none => exact .inl (by simpa using List.find?_eq_none.mp hfind)
  | some t =>
    obtain ⟨ht, front, back, rfl, hfront⟩ := List.find?_eq_some_iff_append.mp hfind
    exact .inr ⟨front, t, back, rfl, by simpa using hfront, by simpa using ht⟩

theorem firstWithin_append (h : firstWithin parts c < parts.length) :
    firstWithin (parts ++ [new]) c = firstWithin parts c := by
  unfold firstWithin at *
  rw [List.findIdx_append, if_pos h]

theorem firstWithin_append_of_le (h : parts.length ≤ firstWithin parts c) (hc : new.Within c) :
    firstWithin (parts ++ [new]) c = parts.length := by
  unfold firstWithin at *
  rw [List.findIdx_append, if_neg (Nat.not_lt.mpr h)]
  simp [List.findIdx_cons, hc]

theorem mergedWith_nonempty (h : new.Nonempty) : (mergedWith new stretches).Nonempty :=
  within_hullAll.1.trans_lt (lt_of_lt_of_le h within_hullAll.2)

theorem mem_touching : c ∈ (stretches.filter fun a => a.Touches new) ↔ c ∈ stretches ∧ c.Touches new := by
  rw [List.mem_filter, decide_eq_true_iff]

theorem mergedWith_of_apart (h : ∀ a ∈ stretches, ¬a.Touches new) : mergedWith new stretches = new := by
  rw [mergedWith, List.filter_eq_nil_iff.mpr (by simpa using h)]
  rfl

theorem mem_mergedWith :
    x ∈ (mergedWith new stretches).points ↔ x ∈ new.points ∨ ∃ a ∈ stretches, a.Touches new ∧ x ∈ a.points := by
  rw [mergedWith, mem_hullAll fun a ha => (mem_touching.mp ha).2]
  simp only [mem_touching, and_assoc]

theorem touches_mergedWith_iff (hne : ∀ a ∈ stretches, a.Nonempty)
    (hapart : stretches.Pairwise fun a b => ¬a.Touches b) (hc : c ∈ stretches) :
    c.Touches (mergedWith new stretches) ↔ c.Touches new := by
  by_cases htouch : c.Touches new
  · have hwithin : c.Within (mergedWith new stretches) := within_hullAll_of_mem (mem_touching.mpr ⟨hc, htouch⟩)
    exact ⟨fun _ => htouch, fun _ => hwithin.touches (hne c hc)⟩
  · refine touches_hullAll_iff (hne c hc) (Within.refl _) (fun a ha => (mem_touching.mp ha).2) ?_ Iff.rfl
    intro a ha hac
    obtain ⟨hmem, hnew⟩ := mem_touching.mp ha
    rw [eq_of_touches hapart hmem hc hac] at hnew
    exact htouch hnew

variable (h : Coalesced parts stretches)

include h

theorem Coalesced.mem_absorb :
    c ∈ absorb new stretches ↔ c = mergedWith new stretches ∨ c ∈ stretches ∧ ¬c.Touches new := by
  rcases apart_or_split new stretches with hnone | ⟨front, t, back, rfl, hfront, ht⟩
  · rw [absorb_of_apart hnone, List.mem_append, List.mem_singleton, mergedWith_of_apart hnone, or_comm]
    exact or_congr_right ⟨fun hc => ⟨hc, hnone c hc⟩, And.left⟩
  · rw [absorb_split hfront ht h.nonempty h.apart]
    simp only [List.mem_append, List.mem_cons, List.mem_filter, decide_eq_true_iff]
    constructor
    · rintro (hc | rfl | ⟨hc, hapart⟩)
      · exact .inr ⟨.inl hc, hfront c hc⟩
      · exact .inl rfl
      · exact .inr ⟨.inr (.inr hc), hapart⟩
    · rintro (rfl | ⟨hc | rfl | hc, hapart⟩)
      · exact .inr (.inl rfl)
      · exact .inl hc
      · exact absurd ht hapart
      · exact .inr (.inr ⟨hc, hapart⟩)

/-- A part inside the merged piece lay inside a piece that the new part touches. -/
theorem Coalesced.exists_touching (hp : p ∈ parts) (hne : p.Nonempty) (hwithin : p.Within (mergedWith new stretches)) :
    ∃ a ∈ stretches, p.Within a ∧ a.Touches new := by
  obtain ⟨a, ha, hpa⟩ := h.exists_within hp hne
  have htouch : a.Touches (mergedWith new stretches) :=
    touches_of_mem (hpa.mem hne.start_mem) (hwithin.mem hne.start_mem)
  exact ⟨a, ha, hpa, (touches_mergedWith_iff h.nonempty h.apart ha).mp htouch⟩

theorem Coalesced.firstWithin_mergedWith_of_apart (hparts : ∀ p ∈ parts, p.Nonempty)
    (hnone : ∀ a ∈ stretches, ¬a.Touches new) :
    firstWithin (parts ++ [new]) (mergedWith new stretches) = parts.length := by
  refine firstWithin_append_of_le (Nat.not_lt.mp fun hlt => ?_) within_hullAll
  obtain ⟨p, hp, hwithin⟩ := List.findIdx_lt_length.mp hlt
  obtain ⟨a, ha, -, htouch⟩ := h.exists_touching hp (hparts p hp) (of_decide_eq_true hwithin)
  exact hnone a ha htouch

end

/-- The merged piece is met first where the first piece merged into it is. -/
theorem Coalesced.firstWithin_mergedWith_of_split {new t : Stretch α} {parts front back : List (Stretch α)}
    (h : Coalesced parts (front ++ t :: back)) (hparts : ∀ p ∈ parts, p.Nonempty)
    (hfront : ∀ a ∈ front, ¬a.Touches new) (ht : t.Touches new) :
    firstWithin parts (mergedWith new (front ++ t :: back)) = firstWithin parts t := by
  have hmem : t ∈ front ++ t :: back := List.mem_append_right _ List.mem_cons_self
  have hwithin : t.Within (mergedWith new (front ++ t :: back)) :=
    within_hullAll_of_mem (mem_touching.mpr ⟨hmem, ht⟩)
  refine le_antisymm (List.findIdx_le_findIdx fun p _ hp => ?_) (Nat.not_lt.mp fun hlt => ?_)
  · exact decide_eq_true ((of_decide_eq_true hp).trans hwithin)
  · have hlength := hlt.trans (h.firstWithin_lt hmem)
    have hp : parts[firstWithin parts (mergedWith new (front ++ t :: back))] ∈ parts := List.getElem_mem hlength
    have hwithin' := of_decide_eq_true (List.findIdx_getElem (w := hlength))
    obtain ⟨a, ha, hpa, htouch⟩ := h.exists_touching hp (hparts _ hp) hwithin'
    have hle : firstWithin parts a ≤ firstWithin parts (mergedWith new (front ++ t :: back)) :=
      Nat.not_lt.mp fun hlt => of_decide_eq_false (List.not_of_lt_findIdx hlt) hpa
    rcases List.mem_append.mp ha with ha | ha
    · exact hfront a ha htouch
    · rcases List.mem_cons.mp ha with rfl | ha
      · omega
      · have hbehind := (List.pairwise_cons.mp (List.pairwise_append.mp h.ordered).2.1).1 a ha
        omega

theorem pairwise_replace {β : Type*} {R : β → β → Prop} {front back : List β} {t g : β} {keep : β → Bool}
    (h : (front ++ t :: back).Pairwise R) (hfront : ∀ a ∈ front, R a t → R a g)
    (hback : ∀ b ∈ back, keep b = true → R t b → R g b) : (front ++ g :: back.filter keep).Pairwise R := by
  obtain ⟨hf, htb, hcross⟩ := List.pairwise_append.mp h
  obtain ⟨ht, hb⟩ := List.pairwise_cons.mp htb
  refine List.pairwise_append.mpr ⟨hf, List.pairwise_cons.mpr ⟨?_, hb.filter keep⟩, ?_⟩
  · intro b hmem
    obtain ⟨hmem, hkeep⟩ := List.mem_filter.mp hmem
    exact hback b hmem hkeep (ht b hmem)
  · intro a ha b hmem
    rcases List.mem_cons.mp hmem with rfl | hmem
    · exact hfront a ha (hcross a ha t List.mem_cons_self)
    · exact hcross a ha b (List.mem_cons_of_mem _ (List.mem_filter.mp hmem).1)

/-- **One more part.** -/
theorem Coalesced.absorb {new : Stretch α} {parts stretches : List (Stretch α)} (h : Coalesced parts stretches)
    (hparts : ∀ p ∈ parts, p.Nonempty) (hnew : new.Nonempty) :
    Coalesced (parts ++ [new]) (absorb new stretches) where
  nonempty a ha := by
    rcases h.mem_absorb.mp ha with rfl | ⟨ha, -⟩
    · exact mergedWith_nonempty hnew
    · exact h.nonempty a ha
  apart := by
    rcases apart_or_split new stretches with hnone | ⟨front, t, back, rfl, hfront, ht⟩
    · rw [absorb_of_apart hnone]
      exact List.pairwise_append.mpr ⟨h.apart, List.pairwise_singleton _ _, fun a ha b hb => by
        rw [List.mem_singleton.mp hb]; exact hnone a ha⟩
    · rw [absorb_split hfront ht h.nonempty h.apart]
      have htouches : ∀ a ∈ front ++ t :: back, a.Touches (mergedWith new (front ++ t :: back)) → a.Touches new :=
        fun a ha => (touches_mergedWith_iff h.nonempty h.apart ha).mp
      refine pairwise_replace h.apart (fun a ha _ htouch => ?_) (fun b hb hkeep _ htouch => ?_)
      · exact hfront a ha (htouches a (List.mem_append_left _ ha) htouch)
      · have hb : b ∈ front ++ t :: back := List.mem_append_right _ (List.mem_cons_of_mem _ hb)
        exact of_decide_eq_true hkeep (htouches b hb htouch.symm)
  union x := by
    simp only [h.mem_absorb, List.mem_append, List.mem_singleton]
    constructor
    · rintro ⟨a, rfl | ⟨ha, hapart⟩, hx⟩
      · rcases mem_mergedWith.mp hx with hx | ⟨b, hb, -, hx⟩
        · exact ⟨new, .inr rfl, hx⟩
        · obtain ⟨p, hp, hx⟩ := (h.union x).mp ⟨b, hb, hx⟩
          exact ⟨p, .inl hp, hx⟩
      · obtain ⟨p, hp, hx⟩ := (h.union x).mp ⟨a, ha, hx⟩
        exact ⟨p, .inl hp, hx⟩
    · rintro ⟨p, hp | rfl, hx⟩
      · obtain ⟨a, ha, hx⟩ := (h.union x).mpr ⟨p, hp, hx⟩
        by_cases htouch : a.Touches new
        · exact ⟨_, .inl rfl, mem_mergedWith.mpr (.inr ⟨a, ha, htouch, hx⟩)⟩
        · exact ⟨a, .inr ⟨ha, htouch⟩, hx⟩
      · exact ⟨_, .inl rfl, mem_mergedWith.mpr (.inl hx)⟩
  ordered := by
    have hkept : stretches.Pairwise fun a b => firstWithin (parts ++ [new]) a < firstWithin (parts ++ [new]) b :=
      h.ordered.imp_of_mem fun ha hb hlt => by
        rwa [firstWithin_append (h.firstWithin_lt ha), firstWithin_append (h.firstWithin_lt hb)]
    rcases apart_or_split new stretches with hnone | ⟨front, t, back, rfl, hfront, ht⟩
    · have hlast : firstWithin (parts ++ [new]) new = parts.length := by
        have := h.firstWithin_mergedWith_of_apart hparts hnone
        rwa [mergedWith_of_apart hnone] at this
      rw [absorb_of_apart hnone]
      refine List.pairwise_append.mpr ⟨hkept, List.pairwise_singleton _ _, fun a ha b hb => ?_⟩
      rw [List.mem_singleton.mp hb, firstWithin_append (h.firstWithin_lt ha), hlast]
      exact h.firstWithin_lt ha
    · have hfirst := h.firstWithin_mergedWith_of_split hparts hfront ht
      have ht' : t ∈ front ++ t :: back := List.mem_append_right _ List.mem_cons_self
      have hsame : firstWithin (parts ++ [new]) (mergedWith new (front ++ t :: back)) =
          firstWithin (parts ++ [new]) t := by
        rw [firstWithin_append (hfirst ▸ h.firstWithin_lt ht'), hfirst, firstWithin_append (h.firstWithin_lt ht')]
      rw [absorb_split hfront ht h.nonempty h.apart]
      exact pairwise_replace hkept (fun a _ hlt => hsame ▸ hlt) (fun b _ _ hlt => hsame ▸ hlt)

end Library
