import Mathlib.Tactic.Common

/-!
# SServer.Lib.Edge — an edge-triggered source

A source holds up to `cap` items: bytes of a pipe, connections of a backlog. It
is watched edge-triggered: an item that arrives sets its event, a wait that finds
the source armed delivers the event and clears it, and whatever is left behind
stays without one until the next arrival. An item that finds the source full is
refused and sets nothing.

* `Edge.Backed.add_armed`: no arrival goes unseen: it sets the event, or the source was full and
  had its event already.
* `Edge.Backed.add`: arrivals keep a source `Backed`, that is, a full one has an event to come.
* `Edge.take_backed`: so does a reader that takes at least one item.

The items have no contents here, only their number counts. A wait that delivers an event and
leaves items behind is what edge-triggered programs get wrong; nothing in this module rules it
out.
-/

namespace SServer.Lib

/-- The items of a source, and whether an event is to be delivered for it. -/
structure Edge where
  level : Nat
  event : Bool
deriving DecidableEq

/-- An item arrives. -/
def Edge.add (cap : Nat) (e : Edge) : Edge :=
  if e.level < cap then { level := e.level + 1, event := true } else e

/-- Up to `n` items are taken. -/
def Edge.take (n : Nat) (e : Edge) : Edge := { e with level := e.level - n }

/-- The event is delivered. -/
def Edge.deliver (e : Edge) : Edge := { e with event := false }

/-- A wait returns at once. -/
def Edge.Armed (e : Edge) : Prop := e.event = true ∧ 0 < e.level

/-- No arrival can be refused unless an event is to be delivered. -/
def Edge.Backed (cap : Nat) (e : Edge) : Prop :=
  e.level ≤ cap ∧ (e.level = cap → e.event = true)

instance (e : Edge) : Decidable e.Armed := inferInstanceAs (Decidable (_ ∧ _))

variable {cap : Nat} {e : Edge}

/-- A source never holds more than it can. -/
theorem Edge.add_le (h : e.level ≤ cap) : (e.add cap).level ≤ cap := by
  unfold Edge.add
  split
  · next hlt => exact hlt
  · exact h

/-- **No arrival goes unseen**: it sets the event of a source that can take it, and a full
one has its event already. -/
theorem Edge.Backed.add_armed (h : e.Backed cap) (hcap : 0 < cap) : (e.add cap).Armed := by
  unfold Edge.add
  split
  · exact ⟨rfl, Nat.succ_pos e.level⟩
  · next hfull =>
    have hle := h.1
    exact ⟨h.2 (by omega), by omega⟩

/-- Arrivals keep a full source with an event to come. -/
theorem Edge.Backed.add (h : e.Backed cap) : (e.add cap).Backed cap := by
  refine ⟨Edge.add_le h.1, ?_⟩
  unfold Edge.add
  split
  · exact fun _ => rfl
  · exact h.2

/-- Taking anything at all makes room, whether an event is to be delivered or not. -/
theorem Edge.take_backed {n : Nat} (h : e.level ≤ cap) (hn : 0 < n) (hcap : 0 < cap) :
    (e.take n).Backed cap := by
  unfold Edge.take Edge.Backed
  exact ⟨by simp only; omega, fun heq => by simp only at heq; omega⟩

end SServer.Lib
