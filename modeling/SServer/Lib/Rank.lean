import Mathlib.Algebra.BigOperators.Group.Finset.Basic
import SServer.Lib.Run

/-!
# SServer.Lib.Rank — runs that come to an end

A rank that every step takes down bounds the length of a run. The rank of a system of
parts is the sum of theirs; a step that changes one part changes the sum by as much.

* `exec_length_le`: rank rule: a run whose steps all take the rank down is no longer than the
  rank it starts with.
* `sum_change`: one part changes, and the sum of the ranks by as much.

The rank is a number; no fairness is assumed, and none is needed for a bound that holds in every
order of steps.
-/

namespace SServer.Lib

universe u v w

variable {σ : Type u} {α : Type v} {step : α → σ → Option σ}

/-- What holds at each step holds together. -/
theorem along_and {A B : α → σ → Prop} {ls : List α} : ∀ {s : σ}, Along step A ls s →
    Along step B ls s → Along step (fun l s => A l s ∧ B l s) ls s := by
  induction ls with
  | nil => exact fun _ _ => trivial
  | cons l ls ih =>
    intro s hA hB m hm
    exact ⟨⟨(hA m hm).1, (hB m hm).1⟩, ih (hA m hm).2 (hB m hm).2⟩

/-- **Rank rule.** When the steps that meet `C` keep the invariant and take the rank down, a run
all of whose steps meet `C` is no longer than the rank it starts with. -/
theorem exec_length_le (Inv : σ → Prop) (rank : σ → Nat) {C : α → σ → Prop}
    (hstep : ∀ l s t, Inv s → C l s → step l s = some t → Inv t ∧ rank t < rank s) :
    ∀ {ls : List α} {s t : σ}, Inv s → Along step C ls s → exec step ls s = some t →
      ls.length + rank t ≤ rank s := by
  intro ls
  induction ls with
  | nil =>
    intro s t _ _ ht
    cases ht
    exact Nat.le_of_eq (Nat.zero_add _)
  | cons l ls ih =>
    intro s t hs hC ht
    rcases exec_cons_some.mp ht with ⟨m, hm, hrest⟩
    rcases hC m hm with ⟨hl, hls⟩
    rcases hstep l s m hs hl hm with ⟨hinv, hlt⟩
    have hle := ih hinv hls hrest
    rw [List.length_cons]
    omega

/-- **One part changes**, and the sum with it. -/
theorem sum_change {ι : Type w} [DecidableEq ι] {parts : Finset ι} {i : ι} (hi : i ∈ parts)
    {f g : ι → Nat} (hother : ∀ j, j ≠ i → g j = f j) :
    ∑ j ∈ parts, g j + f i = ∑ j ∈ parts, f j + g i := by
  have hrest : ∑ j ∈ parts.erase i, g j = ∑ j ∈ parts.erase i, f j :=
    Finset.sum_congr rfl fun j hj => hother j (Finset.ne_of_mem_erase hj)
  rw [← Finset.add_sum_erase parts f hi, ← Finset.add_sum_erase parts g hi, hrest]
  omega

end SServer.Lib
