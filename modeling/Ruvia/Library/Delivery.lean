import Mathlib.Data.List.Basic

/-!
# `Library.Delivery` — stream processors under arbitrary delivery

A stream processor holds a state `σ`. Two kinds of action drive it: a piece of the stream *arrives*, or the
processor takes a *turn* (with a parameter `τ`: a quota, a budget). A schedule is a list of actions; the
stream it delivers is the concatenation of the arriving pieces.

To show that the result does not depend on the schedule it is enough to give every state a **value** for
every stream still to come, such that

* an arrival only moves bytes from "to come" into the state (`value_arrive`), and
* a turn changes nothing (`value_turn`).

Both laws are needed under an invariant only. The value of the first state on the whole stream is then the
value of every state a schedule reaches (`Meaning.run_value`), and two schedules that deliver the same
stream agree (`Meaning.delivery_independent`).
-/

namespace Library

variable {σ β τ Ω : Type*}

/-- One action of a driver. -/
inductive Action (β τ : Type*) where
  | arrive (chunk : List β)
  | turn (param : τ)

namespace Action

/-- The stream a schedule delivers. -/
def delivered : List (Action β τ) → List β
  | [] => []
  | .arrive chunk :: acts => chunk ++ delivered acts
  | .turn _ :: acts => delivered acts

@[simp] theorem delivered_map_turn (ps : List τ) :
    delivered (ps.map Action.turn : List (Action β τ)) = [] := by
  induction ps with
  | nil => rfl
  | cons p ps ih => exact ih

end Action

/-- A stream processor: what an arrival and a turn do to its state. -/
structure Processor (σ β τ : Type*) where
  arrive : σ → List β → σ
  turn : σ → τ → σ

namespace Processor

variable (M : Processor σ β τ)

/-- The effect of one action. -/
def act (s : σ) : Action β τ → σ
  | .arrive chunk => M.arrive s chunk
  | .turn p => M.turn s p

/-- The state a schedule reaches. -/
def run (s : σ) (acts : List (Action β τ)) : σ := acts.foldl M.act s

theorem run_append (s : σ) (xs ys : List (Action β τ)) :
    M.run s (xs ++ ys) = M.run (M.run s xs) ys := List.foldl_append

/-- **A value that no action changes.** -/
structure Meaning (Inv : σ → Prop) (value : σ → List β → Ω) : Prop where
  inv_arrive : ∀ {s chunk}, Inv s → Inv (M.arrive s chunk)
  inv_turn : ∀ {s p}, Inv s → Inv (M.turn s p)
  value_arrive : ∀ {s chunk} wire, Inv s → value (M.arrive s chunk) wire = value s (chunk ++ wire)
  value_turn : ∀ {s p} wire, Inv s → value (M.turn s p) wire = value s wire

namespace Meaning

variable {M} {Inv : σ → Prop} {value : σ → List β → Ω}

section

variable (h : M.Meaning Inv value)
include h

theorem inv_run {s : σ} (hs : Inv s) (acts : List (Action β τ)) : Inv (M.run s acts) := by
  induction acts generalizing s with
  | nil => exact hs
  | cons a acts ih =>
    cases a with
    | arrive chunk => exact ih (h.inv_arrive hs)
    | turn p => exact ih (h.inv_turn hs)

/-- The value of the state a schedule reaches is the value of the first state on the whole stream. -/
theorem run_value {s : σ} (hs : Inv s) (acts : List (Action β τ))
    (wire : List β) : value (M.run s acts) wire = value s (Action.delivered acts ++ wire) := by
  induction acts generalizing s with
  | nil => rfl
  | cons a acts ih =>
    cases a with
    | arrive chunk =>
      calc value (M.run (M.arrive s chunk) acts) wire
          = value (M.arrive s chunk) (Action.delivered acts ++ wire) := ih (h.inv_arrive hs)
        _ = value s (chunk ++ (Action.delivered acts ++ wire)) := h.value_arrive _ hs
        _ = value s ((chunk ++ Action.delivered acts) ++ wire) := by rw [List.append_assoc]
    | turn p =>
      exact (ih (h.inv_turn hs)).trans (h.value_turn _ hs)

/-- **Delivery independence.** Schedules that deliver the same stream reach states of the same value. -/
theorem delivery_independent {s : σ} (hs : Inv s)
    {xs ys : List (Action β τ)} (hxy : Action.delivered xs = Action.delivered ys) :
    value (M.run s xs) [] = value (M.run s ys) [] := by
  rw [h.run_value hs, h.run_value hs, hxy]

end

end Meaning

end Processor

end Library
