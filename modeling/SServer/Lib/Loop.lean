import Mathlib.Tactic.Common

/-!
# SServer.Lib.Loop — loops with a backward jump

A loop body either jumps back to its label or leaves the loop. The body of pass `n`
is a function of `n` as well, so that what the environment answers may differ from
pass to pass. The rules: what every pass keeps holds wherever the loop is, and a loop
whose passes each use up some of a finite supply leaves it.

* `turns_invariant`: invariant rule: what holds at the entry and is kept by each pass that jumps
  back.
* `turns_leaves`: measure rule: a loop whose passes use up some of a measure is left within one
  pass more.
* `turns_stop_unique`: a loop stops in one way; a bound on the passes beyond that does not
  matter.

A loop that is never left is one whose `turns` are `.again` for every count of passes; there is
no result for it.
-/

namespace SServer.Lib

universe u v

/-- The outcome of a pass: back at the label, or out of the loop. -/
inductive Turn (σ : Type u) (ρ : Type v) where
  | again (s : σ)
  | stop (r : ρ)

variable {σ : Type u} {ρ : Type v}

/-- Where a loop entered at `s` is after `n` passes, unless it has left before. -/
def turns (body : Nat → σ → Turn σ ρ) (s : σ) : Nat → Turn σ ρ
  | 0 => .again s
  | n + 1 =>
    match turns body s n with
    | .again m => body n m
    | .stop r => .stop r

variable {body : Nat → σ → Turn σ ρ} {s : σ}

/-- Before the first pass a loop is at its label. -/
@[simp] theorem turns_zero : turns body s 0 = .again s := rfl

/-- From the label, the next pass decides. -/
theorem turns_succ_again {n : Nat} {m : σ} (h : turns body s n = .again m) :
    turns body s (n + 1) = body n m := by
  rw [turns, h]

/-- Behind the loop, a further pass is not made. -/
theorem turns_succ_stop {n : Nat} {r : ρ} (h : turns body s n = .stop r) :
    turns body s (n + 1) = .stop r := by
  rw [turns, h]

/-- A loop at its label after `n + 1` passes was at its label before the last of them. -/
theorem turns_pred {n : Nat} {m' : σ} (h : turns body s (n + 1) = .again m') :
    ∃ m, turns body s n = .again m ∧ body n m = .again m' := by
  cases hn : turns body s n with
  | again m => exact ⟨m, rfl, (turns_succ_again hn).symm.trans h⟩
  | stop r => cases (turns_succ_stop hn).symm.trans h

/-- A loop that has been left stays left. -/
theorem turns_stop_le {n k : Nat} {r : ρ} (h : turns body s n = .stop r) (hle : n ≤ k) :
    turns body s k = .stop r := by
  induction hle with
  | refl => exact h
  | step _ ih => exact turns_succ_stop ih

/-- A loop is left with one outcome only. -/
theorem turns_stop_unique {n k : Nat} {r r' : ρ} (h : turns body s n = .stop r)
    (h' : turns body s k = .stop r') : r = r' := by
  have hr := turns_stop_le h (Nat.le_max_left n k)
  have hr' := turns_stop_le h' (Nat.le_max_right n k)
  cases hr.symm.trans hr'
  rfl

/-- A loop whose passes are all alike goes on as one entered behind its first pass. -/
theorem turns_const_succ {f : σ → Turn σ ρ} {m : σ} (h : f s = .again m) (n : Nat) :
    turns (fun _ => f) s (n + 1) = turns (fun _ => f) m n := by
  induction n with
  | zero => exact h
  | succ n ih => rw [turns, ih, turns]

/-- **Invariant rule.** What holds at the entry and is kept by every pass that jumps
back holds whenever the loop is at its label. -/
theorem turns_invariant (I : σ → Prop) (hs : I s)
    (hkeep : ∀ n m m', turns body s n = .again m → I m → body n m = .again m' → I m') :
    ∀ {n : Nat} {m : σ}, turns body s n = .again m → I m := by
  intro n
  induction n with
  | zero =>
    intro m h
    cases h
    exact hs
  | succ n ih =>
    intro m' h
    rcases turns_pred h with ⟨m, hm, hbody⟩
    exact hkeep n m m' hm (ih hm) hbody

/-- **Measure rule.** A loop whose passes that jump back each use up some of `μ` is left
within one pass more than there was of it. -/
theorem turns_leaves (μ : σ → Nat)
    (hless : ∀ n m m', turns body s n = .again m → body n m = .again m' → μ m' < μ m) :
    ∃ n r, n ≤ μ s + 1 ∧ turns body s n = .stop r := by
  -- as long as the loop is at its label, each pass has used up one
  have hused : ∀ n m, turns body s n = .again m → n + μ m ≤ μ s := by
    intro n
    induction n with
    | zero =>
      intro m h
      cases h
      exact Nat.le_of_eq (Nat.zero_add _)
    | succ n ih =>
      intro m' h
      rcases turns_pred h with ⟨m, hm, hbody⟩
      have hle := ih m hm
      have hlt := hless n m m' hm hbody
      omega
  cases h : turns body s (μ s + 1) with
  | again m =>
    have hle := hused _ m h
    omega
  | stop r => exact ⟨μ s + 1, r, Nat.le_refl _, h⟩

/-- The pass in which a loop is left. -/
theorem turns_last {n : Nat} {r : ρ} (h : turns body s n = .stop r) :
    ∃ k m, k < n ∧ turns body s k = .again m ∧ body k m = .stop r := by
  induction n with
  | zero => cases h
  | succ n ih =>
    cases hn : turns body s n with
    | again m => exact ⟨n, m, Nat.lt_succ_self n, hn, (turns_succ_again hn).symm.trans h⟩
    | stop r' =>
      cases (turns_succ_stop hn).symm.trans h
      rcases ih hn with ⟨k, m, hk, hm, hbody⟩
      exact ⟨k, m, by omega, hm, hbody⟩

end SServer.Lib
