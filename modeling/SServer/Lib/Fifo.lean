import SServer.Lib.Run

/-!
# SServer.Lib.Fifo — the abstract FIFO queue

A bounded-or-not FIFO queue seen from its events: a push that was accepted or
refused, a look at the oldest element, a removal. `fifoStep` accepts exactly
the events a FIFO list can produce, so "an implementation refines a FIFO" is
"its event trace is a run of `fifoStep`". When a refusal happens is left open;
that it changes nothing is not.

* `fifo_contents`: what a run leaves in the queue, and what it has removed, make up what it has
  accepted, in order.

A capacity is not part of the queue. What is refused, and when, is up to the implementation.
-/

namespace SServer.Lib

universe u

variable {α : Type u}

/-- What a caller sees of a queue. -/
inductive FifoEv (α : Type u) where
  | push (x : α) (ok : Bool)
  | get (front : Option α)
  | pop

/-- The list machine: an event is enabled when a FIFO list can produce it. -/
def fifoStep [DecidableEq α] : FifoEv α → List α → Option (List α)
  | .push x true, q => some (q ++ [x])
  | .push _ false, q => some q
  | .get o, q => if q.head? = o then some q else none
  | .pop, [] => none
  | .pop, _ :: q => some q

/-- The elements whose push was accepted, in order. -/
def accepted : List (FifoEv α) → List α
  | [] => []
  | .push x true :: es => x :: accepted es
  | _ :: es => accepted es

/-- The number of removals. -/
def popCount : List (FifoEv α) → Nat
  | [] => 0
  | .pop :: es => popCount es + 1
  | _ :: es => popCount es

variable [DecidableEq α]

/-- **A FIFO holds the accepted elements less the removed ones, oldest first.** -/
theorem fifo_contents : ∀ (es : List (FifoEv α)) (q r : List α),
    exec fifoStep es q = some r → r = (q ++ accepted es).drop (popCount es) := by
  intro es
  induction es with
  | nil =>
    intro q r h
    cases h
    simp [accepted, popCount]
  | cons e es ih =>
    intro q r h
    obtain ⟨m, hm, hr⟩ := exec_cons_some.mp h
    have hrest := ih m r hr
    cases e with
    | push x ok =>
      cases ok with
      | false =>
        cases hm
        exact hrest
      | true =>
        cases hm
        simpa [accepted, popCount] using hrest
    | get o =>
      simp only [fifoStep, Option.ite_none_right_eq_some] at hm
      cases hm.2
      exact hrest
    | pop =>
      cases q with
      | nil => cases hm
      | cons x q =>
        cases hm
        simpa [accepted, popCount] using hrest

end SServer.Lib
