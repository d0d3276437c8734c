import SServer.Lib.Run

/-!
# SServer.Lib.Handles — closing a list of handles

A process has a table of handles, each standing for something, and closes those of
a list, one after another. Meanwhile it opens and closes handles of one more kind,
`noise`, under whatever numbers are free: those that the list has just given back
among them.

* `closingStep_closedFrom`: one step of the closing, or of the noise beside it.
* `closing_spec`: when the list is through, what is left that is no noise is what was in the
  table and not on the list.

What the handles stand for is a parameter, and so is which of them are noise. A number that is
on the list twice is closed twice.
-/

namespace SServer.Lib

universe u v

variable {κ : Type u} {ω : Type v}

/-- What each handle stands for, and those that are still to be closed. -/
structure Closing (κ : Type u) (ω : Type v) where
  table : κ → Option ω
  todo : List κ

/-- The next handle of the list is closed; or noise comes, or goes. -/
inductive ClosingLbl (κ : Type u) where
  | close
  | opens (k : κ)
  | drops (k : κ)

/-- One step. -/
def closingStep [DecidableEq κ] [DecidableEq ω] (noise : ω) :
    ClosingLbl κ → Closing κ ω → Option (Closing κ ω)
  | .close, s =>
    match s.todo with
    | [] => none
    | k :: rest => some { table := Function.update s.table k none, todo := rest }
  | .opens k, s =>
    if s.table k = none then some { s with table := Function.update s.table k (some noise) }
    else none
  | .drops k, s =>
    if s.table k = some noise then some { s with table := Function.update s.table k none }
    else none

/-- What is no noise is as it was in `table`, as far as it has not been closed. -/
def ClosedFrom (noise : ω) (table : κ → Option ω) (todo : List κ) (s : Closing κ ω) : Prop :=
  ∃ done, todo = done ++ s.todo ∧
    ∀ k o, o ≠ noise → (s.table k = some o ↔ table k = some o ∧ k ∉ done)

variable {noise : ω} {table : κ → Option ω} {todo : List κ}

/-- Before the first step nothing has been closed. -/
theorem closedFrom_self : ClosedFrom noise table todo ⟨table, todo⟩ := by
  refine ⟨[], rfl, fun k o _ => ?_⟩
  simp

variable [DecidableEq κ]

/-- Noise may be put where there is nothing, or taken away again. -/
theorem ClosedFrom.touch {s : Closing κ ω} (h : ClosedFrom noise table todo s) {k : κ}
    {before after : Option ω} (hbefore : s.table k = before)
    (hold : ∀ o, before = some o → o = noise) (hnew : ∀ o, after = some o → o = noise) :
    ClosedFrom noise table todo { s with table := Function.update s.table k after } := by
  rcases h with ⟨done, htodo, htable⟩
  refine ⟨done, htodo, fun n o ho => ?_⟩
  rw [← htable n o ho]
  by_cases hn : n = k
  · subst hn
    simp only [Function.update_self]
    constructor
    · intro hafter
      exact absurd (hnew o hafter) ho
    · intro htab
      exact absurd (hold o (hbefore.symm.trans htab)) ho
  · simp only [Function.update_of_ne hn]

variable [DecidableEq ω]

/-- One step, of the closing or of the noise, keeps what has been closed accounted for. -/
theorem closingStep_closedFrom {l : ClosingLbl κ} {s t : Closing κ ω}
    (h : ClosedFrom noise table todo s) (hstep : closingStep noise l s = some t) :
    ClosedFrom noise table todo t := by
  cases l with
  | close =>
    simp only [closingStep] at hstep
    split at hstep
    · cases hstep
    · next k rest hrest =>
      cases hstep
      rcases h with ⟨done, htodo, htable⟩
      -- the next of the list is closed
      refine ⟨done ++ [k], by simp [htodo, hrest], fun n o ho => ?_⟩
      by_cases hn : n = k
      · subst hn
        simp
      · simp only [Function.update_of_ne hn, List.mem_append, List.mem_singleton, hn, or_false]
        exact htable n o ho
  | opens k =>
    simp only [closingStep, Option.ite_none_right_eq_some] at hstep
    rcases hstep with ⟨hfree, heq⟩
    rw [← Option.some.inj heq]
    refine h.touch hfree ?_ ?_
    · intro o ho
      cases ho
    · intro o ho
      exact (Option.some.inj ho).symm
  | drops k =>
    simp only [closingStep, Option.ite_none_right_eq_some] at hstep
    rcases hstep with ⟨hnoise, heq⟩
    rw [← Option.some.inj heq]
    refine h.touch hnoise ?_ ?_
    · intro o ho
      exact (Option.some.inj ho).symm
    · intro o ho
      cases ho

/-- **What is left when the list is through**: of what is no noise, all that was in the
table and not on the list. -/
theorem closing_spec {ls : List (ClosingLbl κ)} {s : Closing κ ω}
    (hrun : exec (closingStep noise) ls ⟨table, todo⟩ = some s) (hdone : s.todo = [])
    (k : κ) {o : ω} (ho : o ≠ noise) : s.table k = some o ↔ table k = some o ∧ k ∉ todo := by
  have h := exec_invariant' (ClosedFrom noise table todo)
    (fun _ _ _ hs => closingStep_closedFrom hs) closedFrom_self hrun
  rcases h with ⟨done, htodo, htable⟩
  rw [hdone, List.append_nil] at htodo
  rw [htodo]
  exact htable k o ho

end SServer.Lib
