import Mathlib.Tactic.Common
import Mathlib.Logic.Function.Basic

/-!
# SServer.Lib.Run — runs of a labelled step function

A machine is a partial step function `step : α → σ → Option σ`. A label
carries who moves and every choice the environment makes; `none` means that
the step is not enabled. A run is the list of its labels, so a run either
reaches exactly one state or is not a run at all.

`Along P` says that a predicate on steps (label and state before the step)
holds at every step a run takes, `Throughout P` that a predicate on states holds
in every state of it. The rules below are the only inductions over runs in
this development: an invariant may be inductive under a condition `C` on the
steps, and is then carried along the runs whose steps all meet `C`.

* `exec_invariant`: invariant rule, for the runs whose steps all meet `C`.
* `along_of_along`: step rule: such runs also satisfy what each step from an invariant state
  satisfies.
* `along_iff_along`, `throughout_iff_along`, `throughout_and_along_iff`: exactness rules: a
  property holds along a run, or throughout it, if and only if every step of the run meets `C`.
  The step that does not is the first to break the property.
* `exec_good_or_bad`: dichotomy rule, for properties that cannot recover.

Runs are finite and there is no notion of fairness. Liveness is stated as a bound on the length
of runs, or as what is enabled in a state.
-/

namespace SServer.Lib

universe u v w

variable {σ : Type u} {α : Type v}

/-! ## Runs -/

/-- Take the steps `ls` one after another from `s`. -/
def exec (step : α → σ → Option σ) : List α → σ → Option σ
  | [], s => some s
  | l :: ls, s => (step l s).bind (exec step ls)

/-- Every step that the run `ls` takes from `s` satisfies `P`. -/
def Along (step : α → σ → Option σ) (P : α → σ → Prop) : List α → σ → Prop
  | [], _ => True
  | l :: ls, s => ∀ s', step l s = some s' → P l s ∧ Along step P ls s'

/-- Every state of the run `ls` from `s`, the first one included, satisfies `P`. -/
def Throughout (step : α → σ → Option σ) (P : σ → Prop) : List α → σ → Prop
  | [], s => P s
  | l :: ls, s => P s ∧ ∀ s', step l s = some s' → Throughout step P ls s'

variable {step : α → σ → Option σ}

/-- A condition that can be decided at each step can be decided along a run. -/
instance decidableAlong {P : α → σ → Prop} [∀ l s, Decidable (P l s)] :
    ∀ ls s, Decidable (Along step P ls s)
  | [], _ => isTrue trivial
  | l :: ls, s =>
    match h : step l s with
    | none => isTrue (by simp [Along, h])
    | some m =>
      have := decidableAlong (P := P) ls m
      decidable_of_iff (P l s ∧ Along step P ls m) (by simp [Along, h])

@[simp] theorem exec_nil (s : σ) : exec step [] s = some s := rfl

@[simp] theorem exec_cons (l : α) (ls : List α) (s : σ) :
    exec step (l :: ls) s = (step l s).bind (exec step ls) := rfl

/-- A run with a first step. -/
theorem exec_cons_some {l : α} {ls : List α} {s t : σ} :
    exec step (l :: ls) s = some t ↔ ∃ m, step l s = some m ∧ exec step ls m = some t := by
  rw [exec_cons, Option.bind_eq_some_iff]

/-- One run behind the other. -/
theorem exec_append (ls ms : List α) (s : σ) :
    exec step (ls ++ ms) s = (exec step ls s).bind (exec step ms) := by
  induction ls generalizing s with
  | nil => rfl
  | cons l ls ih =>
    simp only [List.cons_append, exec_cons]
    cases step l s with
    | none => rfl
    | some m => exact ih m

/-- A run can be extended by one step at its end. -/
theorem exec_concat {ls : List α} {l : α} {s m t : σ} (h : exec step ls s = some m)
    (hl : step l m = some t) : exec step (ls ++ [l]) s = some t := by
  rw [exec_append, h]
  simp [hl]

/-- `t` is reached from `s` by the label `l` alone, taken any number of times. -/
inductive Repeat (step : α → σ → Option σ) (l : α) : σ → σ → Prop where
  | refl (s : σ) : Repeat step l s s
  | step {s m t : σ} (h : step l s = some m) (hrest : Repeat step l m t) : Repeat step l s t

/-- A step that is repeated is a run. -/
theorem Repeat.exec {l : α} {s t : σ} (h : Repeat step l s t) :
    ∃ n, exec step (List.replicate n l) s = some t := by
  induction h with
  | refl s => exact ⟨0, rfl⟩
  | step h _ ih =>
    rcases ih with ⟨n, hn⟩
    refine ⟨n + 1, ?_⟩
    rw [List.replicate_succ, exec_cons_some]
    exact ⟨_, h, hn⟩

/-- A condition that all labels of a run meet is met along the run. -/
theorem along_of_forall {C : α → Prop} {ls : List α} (h : ∀ l ∈ ls, C l) (s : σ) :
    Along step (fun l _ => C l) ls s := by
  induction ls generalizing s with
  | nil => trivial
  | cons l ls ih =>
    intro m _
    exact ⟨h l List.mem_cons_self, ih (fun l' hl' => h l' (List.mem_cons_of_mem l hl')) m⟩

/-- So is one that they meet wherever they are taken. -/
theorem along_of_all {C : α → σ → Prop} {ls : List α} (h : ∀ l ∈ ls, ∀ s, C l s) (s : σ) :
    Along step C ls s := by
  induction ls generalizing s with
  | nil => trivial
  | cons l ls ih =>
    intro m _
    exact ⟨h l List.mem_cons_self s, ih (fun l' hl' => h l' (List.mem_cons_of_mem l hl')) m⟩

/-! ## Invariants -/

/-- **Invariant rule.** An invariant preserved by the steps that meet `C` holds
at the end of every run all of whose steps meet `C`. -/
theorem exec_invariant (Inv : σ → Prop) {C : α → σ → Prop}
    (hstep : ∀ l s t, Inv s → C l s → step l s = some t → Inv t) :
    ∀ {ls : List α} {s t : σ}, Inv s → Along step C ls s → exec step ls s = some t → Inv t := by
  intro ls
  induction ls with
  | nil =>
    intro s t hs _ ht
    cases ht
    exact hs
  | cons l ls ih =>
    intro s t hs hC ht
    rcases exec_cons_some.mp ht with ⟨m, hm, hrest⟩
    rcases hC m hm with ⟨hl, hls⟩
    exact ih (hstep l s m hs hl hm) hls hrest

/-- The invariant rule with no condition on the steps. -/
theorem exec_invariant' (Inv : σ → Prop)
    (hstep : ∀ l s t, Inv s → step l s = some t → Inv t) {ls : List α} {s t : σ}
    (hs : Inv s) (ht : exec step ls s = some t) : Inv t := by
  have halong : Along step (fun _ _ => True) ls s := along_of_forall (fun _ _ => trivial) s
  exact exec_invariant Inv (fun l s t hs _ h => hstep l s t hs h) hs halong ht

/-- **Step rule.** When the steps that meet `C` keep the invariant and satisfy `A`, then
a run all of whose steps meet `C` satisfies `A` at each of them. -/
theorem along_of_along (Inv : σ → Prop) {C A : α → σ → Prop}
    (hstep : ∀ l s t, Inv s → C l s → step l s = some t → A l s ∧ Inv t) :
    ∀ {ls : List α} {s : σ}, Inv s → Along step C ls s → Along step A ls s := by
  intro ls
  induction ls with
  | nil =>
    intro s _ _
    trivial
  | cons l ls ih =>
    intro s hs hC m hm
    rcases hC m hm with ⟨hl, hls⟩
    rcases hstep l s m hs hl hm with ⟨hA, hinv⟩
    exact ⟨hA, ih hinv hls⟩

/-- What holds along a run and along what goes on from its end holds along both. -/
theorem along_append {A : α → σ → Prop} {ls ms : List α} {s : σ} (h : Along step A ls s)
    (hrest : ∀ m, exec step ls s = some m → Along step A ms m) : Along step A (ls ++ ms) s := by
  induction ls generalizing s with
  | nil => exact hrest s rfl
  | cons l ls ih =>
    intro m hm
    rcases h m hm with ⟨hl, hls⟩
    refine ⟨hl, ih hls fun m' hm' => hrest m' ?_⟩
    exact exec_cons_some.mpr ⟨m, hm, hm'⟩

/-- What holds along a run holds of the step taken at its end. -/
theorem along_last {A : α → σ → Prop} {ls : List α} {l : α} :
    ∀ {s m t : σ}, Along step A (ls ++ [l]) s → exec step ls s = some m → step l m = some t →
      A l m := by
  induction ls with
  | nil =>
    intro s m t hA hm ht
    cases hm
    exact (hA t ht).1
  | cons k ls ih =>
    intro s m t hA hm ht
    rcases exec_cons_some.mp hm with ⟨s', hs', hrest⟩
    exact ih (hA s' hs').2 hrest ht

/-- **Exactness rule**, for a property of steps alone. -/
theorem along_iff_along (Inv : σ → Prop) {C A : α → σ → Prop}
    (hstep : ∀ l s t, Inv s → step l s = some t → C l s ∧ A l s ∧ Inv t ∨ ¬ C l s ∧ ¬ A l s)
    {ls : List α} {s : σ} (hs : Inv s) : Along step A ls s ↔ Along step C ls s := by
  constructor
  · apply along_of_along Inv _ hs
    intro l s t hinv hA h
    rcases hstep l s t hinv h with ⟨hC, _, hinv'⟩ | ⟨_, hno⟩
    · exact ⟨hC, hinv'⟩
    · exact absurd hA hno
  · apply along_of_along Inv _ hs
    intro l s t hinv hC h
    rcases hstep l s t hinv h with ⟨_, hA, hinv'⟩ | ⟨hno, _⟩
    · exact ⟨hA, hinv'⟩
    · exact absurd hC hno

/-- What holds throughout a run holds in its first state. -/
theorem throughout_head {P : σ → Prop} {ls : List α} {s : σ} (h : Throughout step P ls s) :
    P s := by
  cases ls with
  | nil => exact h
  | cons l ls => exact h.1

/-- **Exactness rule**, for a property of states and one of steps. When every step
from an invariant state either meets `C`, satisfies `A` and keeps the invariant, or
does not meet `C` and then breaks `A` or ends outside `P`, then a run has `P` in all
its states and `A` at all its steps if and only if every step of it meets `C`. -/
theorem throughout_and_along_iff (Inv : σ → Prop) {C A : α → σ → Prop} {P : σ → Prop}
    (hP : ∀ s, Inv s → P s)
    (hstep : ∀ l s t, Inv s → step l s = some t →
      C l s ∧ A l s ∧ Inv t ∨ ¬ C l s ∧ ¬ (A l s ∧ P t)) :
    ∀ {ls : List α} {s : σ}, Inv s →
      (Throughout step P ls s ∧ Along step A ls s ↔ Along step C ls s) := by
  intro ls
  induction ls with
  | nil =>
    intro s hs
    exact ⟨fun _ => trivial, fun _ => ⟨hP s hs, trivial⟩⟩
  | cons l ls ih =>
    intro s hs
    constructor
    · rintro ⟨⟨_, hnext⟩, halong⟩ m hm
      rcases halong m hm with ⟨hA, hrestA⟩
      rcases hstep l s m hs hm with ⟨hC, _, hinv⟩ | ⟨_, hbad⟩
      · exact ⟨hC, (ih hinv).mp ⟨hnext m hm, hrestA⟩⟩
      · exact absurd ⟨hA, throughout_head (hnext m hm)⟩ hbad
    · intro h
      -- a step that the run takes meets `C`, so the first case holds at each
      have hgood : ∀ m, step l s = some m →
          A l s ∧ Throughout step P ls m ∧ Along step A ls m := by
        intro m hm
        rcases h m hm with ⟨hC, hrest⟩
        rcases hstep l s m hs hm with ⟨_, hA, hinv⟩ | ⟨hno, _⟩
        · exact ⟨hA, (ih hinv).mpr hrest⟩
        · exact absurd hC hno
      constructor
      · exact ⟨hP s hs, fun m hm => (hgood m hm).2.1⟩
      · exact fun m hm => ⟨(hgood m hm).1, (hgood m hm).2.2⟩

/-- **Exactness rule.** When every step from an invariant state either meets `C`
and keeps the invariant, or does not meet `C` and ends outside `P`, then `P`
holds in every state of a run if and only if every step of the run meets `C`. -/
theorem throughout_iff_along (Inv : σ → Prop) {C : α → σ → Prop} {P : σ → Prop}
    (hP : ∀ s, Inv s → P s)
    (hstep : ∀ l s t, Inv s → step l s = some t → C l s ∧ Inv t ∨ ¬ C l s ∧ ¬ P t)
    {ls : List α} {s : σ} (hs : Inv s) : Throughout step P ls s ↔ Along step C ls s := by
  have htrue : Along step (fun _ _ => True) ls s := along_of_forall (fun _ _ => trivial) s
  have hiff : Throughout step P ls s ∧ Along step (fun _ _ => True) ls s ↔ Along step C ls s := by
    refine throughout_and_along_iff Inv hP (fun l s t hinv h => ?_) hs
    rcases hstep l s t hinv h with ⟨hC, hinv'⟩ | ⟨hno, hbad⟩
    · exact Or.inl ⟨hC, trivial, hinv'⟩
    · exact Or.inr ⟨hno, fun hboth => hbad hboth.2⟩
  rw [← hiff]
  exact ⟨fun h => ⟨h, htrue⟩, fun h => h.1⟩

/-- **Dichotomy rule.** When every step from a good state either meets `C` and
ends in a good state, or does not and ends in a bad one, and bad states lead to
bad ones only, then a run from a good state ends in a good state if all its
steps meet `C`, and in a bad one if not. -/
theorem exec_good_or_bad {C : α → σ → Prop} {Good Bad : σ → Prop}
    (hgood : ∀ l s t, Good s → step l s = some t → C l s ∧ Good t ∨ ¬ C l s ∧ Bad t)
    (hbad : ∀ l s t, Bad s → step l s = some t → Bad t) :
    ∀ {ls : List α} {s t : σ}, Good s → exec step ls s = some t →
      Along step C ls s ∧ Good t ∨ ¬ Along step C ls s ∧ Bad t := by
  intro ls
  induction ls with
  | nil =>
    intro s t hs ht
    cases ht
    exact Or.inl ⟨trivial, hs⟩
  | cons l ls ih =>
    intro s t hs ht
    rcases exec_cons_some.mp ht with ⟨m, hm, hrest⟩
    rcases hgood l s m hs hm with ⟨hC, hgm⟩ | ⟨hno, hbm⟩
    · rcases ih hgm hrest with ⟨halong, hgt⟩ | ⟨hnot, hbt⟩
      · left
        refine ⟨fun m' hm' => ?_, hgt⟩
        cases hm.symm.trans hm'
        exact ⟨hC, halong⟩
      · exact Or.inr ⟨fun h => hnot (h m hm).2, hbt⟩
    · right
      refine ⟨fun h => hno (h m hm).1, ?_⟩
      refine exec_invariant' _ hbad hbm hrest

end SServer.Lib
