import Mathlib.Tactic.Common
import Mathlib.Logic.Function.Basic

/-!
# SServer.Lib.Span — ranges of pages and who holds them

Pages are numbered. A span is a range of pages that was mapped at once; holders are
keys, and `held` tells the span of each. `Exact` says that the mapped pages are those of
the spans held, `Apart` that no page is held twice. The lemmas say what mapping, unmapping
and forgetting a span does to the two: unmapping a span with a length that need not be
its own keeps them exactly if all of the span goes and nothing of another one.

* `exact_map`, `apart_map`: mapping a free span for a holder that has none.
* `exact_unmap_iff`: unmapping `n` pages from the start of a span: right exactly if the span has
  no more pages, and nothing else is mapped among the `n`.
* `not_exact_of_lost`, `not_exact_of_leak`: the two ways to lose track: a page that is held and
  not mapped, one that is mapped and held by nobody.
-/

namespace SServer.Lib

universe u

/-- A range of pages. -/
structure Span where
  start : Nat
  len : Nat
  pos : 0 < len

/-- The page `q` is one of the span's. -/
def Span.Has (b : Span) (q : Nat) : Prop := b.start ≤ q ∧ q < b.start + b.len

/-- The first page. -/
theorem Span.has_start (b : Span) : b.Has b.start := by
  have hpos := b.pos
  exact ⟨Nat.le_refl _, by omega⟩

/-- Map the `n` pages from `a` on. -/
def mapPages (mapped : Nat → Bool) (a n : Nat) : Nat → Bool :=
  fun q => if a ≤ q ∧ q < a + n then true else mapped q

/-- Unmap the `n` pages from `a` on. -/
def unmapPages (mapped : Nat → Bool) (a n : Nat) : Nat → Bool :=
  fun q => if a ≤ q ∧ q < a + n then false else mapped q

variable {κ : Type u} {mapped mapped' : Nat → Bool} {held held' : κ → Option Span}

/-- The mapped pages are those of the spans held. -/
def Exact (mapped : Nat → Bool) (held : κ → Option Span) : Prop :=
  ∀ q, mapped q = true ↔ ∃ k b, held k = some b ∧ b.Has q

/-- No page is held twice. -/
def Apart (held : κ → Option Span) : Prop :=
  ∀ k k' b b' q, held k = some b → held k' = some b' → b.Has q → b'.Has q → k = k'

/-- The pages of `b` are not mapped. -/
def Unmapped (mapped : Nat → Bool) (b : Span) : Prop :=
  ∀ i, i < b.len → mapped (b.start + i) = false

instance (mapped : Nat → Bool) (b : Span) : Decidable (Unmapped mapped b) :=
  inferInstanceAs (Decidable (∀ i, i < b.len → mapped (b.start + i) = false))

/-- Nothing is mapped from the end of `b` to `n` pages behind its start. -/
def FreeBehind (mapped : Nat → Bool) (b : Span) (n : Nat) : Prop :=
  ∀ i, i < n → b.len ≤ i → mapped (b.start + i) = false

instance (mapped : Nat → Bool) (b : Span) (n : Nat) : Decidable (FreeBehind mapped b n) :=
  inferInstanceAs (Decidable (∀ i, i < n → b.len ≤ i → mapped (b.start + i) = false))

/-- No page of a free span is mapped. -/
theorem Unmapped.of_has {b : Span} (h : Unmapped mapped b) {q : Nat} (hq : b.Has q) :
    mapped q = false := by
  have hi := h (q - b.start) (by have := hq.1; have := hq.2; omega)
  rwa [Nat.add_sub_cancel' hq.1] at hi

/-- Fewer spans are still apart. -/
theorem Apart.mono (h : Apart held) (hsub : ∀ k b, held' k = some b → held k = some b) :
    Apart held' :=
  fun k k' b b' q hk hk' => h k k' b b' q (hsub k b hk) (hsub k' b' hk')

/-- A page of a span that is held no more, and is still mapped, is one too many. -/
theorem not_exact_of_lost (h : Apart held) (hsub : ∀ k b, held' k = some b → held k = some b)
    {k : κ} {b : Span} (hk : held k = some b) (hk' : held' k = none) {q : Nat} (hq : b.Has q)
    (hm : mapped' q = true) : ¬ Exact mapped' held' := by
  intro hexact
  obtain ⟨k', b', hheld, hhas⟩ := (hexact q).mp hm
  have heq := h k k' b b' q hk (hsub k' b' hheld) hq hhas
  rw [heq, hheld] at hk'
  cases hk'

/-- A span that is mapped for nobody is too many. -/
theorem not_exact_of_leak (h : Exact mapped held) {b : Span} (hfree : Unmapped mapped b) :
    ¬ Exact (mapPages mapped b.start b.len) held := by
  intro hexact
  have hnew : mapPages mapped b.start b.len b.start = true := if_pos b.has_start
  have hold := (h b.start).mpr ((hexact b.start).mp hnew)
  rw [hfree.of_has b.has_start] at hold
  cases hold

variable [DecidableEq κ]

/-- What is held after a span was taken. -/
theorem held_update {k k' : κ} {b b' : Span}
    (h : Function.update held k (some b) k' = some b') :
    k' = k ∧ b' = b ∨ k' ≠ k ∧ held k' = some b' := by
  by_cases hk : k' = k
  · rw [hk, Function.update_self] at h
    exact Or.inl ⟨hk, (Option.some.inj h).symm⟩
  · rw [Function.update_of_ne hk] at h
    exact Or.inr ⟨hk, h⟩

/-- **Mapping** a free span for a holder that has none. -/
theorem exact_map (h : Exact mapped held) {k : κ} (hnone : held k = none) (b : Span) :
    Exact (mapPages mapped b.start b.len) (Function.update held k (some b)) := by
  intro q
  unfold mapPages
  by_cases hq : b.start ≤ q ∧ q < b.start + b.len
  · rw [if_pos hq]
    exact ⟨fun _ => ⟨k, b, Function.update_self _ _ _, hq⟩, fun _ => rfl⟩
  · rw [if_neg hq, h q]
    constructor
    · rintro ⟨k', b', hheld, hhas⟩
      have hne : k' ≠ k := by
        rintro rfl
        rw [hnone] at hheld
        cases hheld
      exact ⟨k', b', (Function.update_of_ne hne _ _).trans hheld, hhas⟩
    · rintro ⟨k', b', hheld, hhas⟩
      obtain ⟨_, rfl⟩ | ⟨_, hold⟩ := held_update hheld
      · exact absurd hhas hq
      · exact ⟨k', b', hold, hhas⟩

/-- A free span shares no page with those held. -/
theorem apart_map (h : Exact mapped held) (ha : Apart held) {b : Span} (hfree : Unmapped mapped b)
    (k : κ) : Apart (Function.update held k (some b)) := by
  -- a page of the new span is in no old one
  have hnew : ∀ k' b' q, held k' = some b' → b'.Has q → ¬ b.Has q := by
    intro k' b' q hheld hhas hq
    have hm := (h q).mpr ⟨k', b', hheld, hhas⟩
    rw [hfree.of_has hq] at hm
    cases hm
  intro k₁ k₂ b₁ b₂ q h₁ h₂ hq₁ hq₂
  obtain ⟨rfl, rfl⟩ | ⟨_, hold₁⟩ := held_update h₁
  · obtain ⟨rfl, _⟩ | ⟨_, hold₂⟩ := held_update h₂
    · rfl
    · exact absurd hq₁ (hnew k₂ b₂ q hold₂ hq₂)
  · obtain ⟨_, rfl⟩ | ⟨_, hold₂⟩ := held_update h₂
    · exact absurd hq₂ (hnew k₁ b₁ q hold₁ hq₁)
    · exact ha k₁ k₂ b₁ b₂ q hold₁ hold₂ hq₁ hq₂

/-- What is held after a span was given up was held before. -/
theorem held_of_update_none {k k' : κ} {b : Span}
    (h : Function.update held k none k' = some b) : k' ≠ k ∧ held k' = some b := by
  by_cases hk : k' = k
  · rw [hk, Function.update_self] at h
    cases h
  · rw [Function.update_of_ne hk] at h
    exact ⟨hk, h⟩

/-- **Unmapping** `n` pages from the start of a span that is given up: right exactly if the
span has no more than `n` pages, and nothing else is mapped among the `n`. -/
theorem exact_unmap_iff (h : Exact mapped held) (ha : Apart held) {k : κ} {b : Span}
    (hk : held k = some b) (n : Nat) :
    Exact (unmapPages mapped b.start n) (Function.update held k none) ↔
      b.len ≤ n ∧ FreeBehind mapped b n := by
  constructor
  · intro hexact
    constructor
    · by_contra hlong
      -- the page behind the `n` stays mapped
      have hhas : b.Has (b.start + n) := ⟨by omega, by omega⟩
      have hm : unmapPages mapped b.start n (b.start + n) = true := by
        unfold unmapPages
        rw [if_neg (by omega)]
        exact (h _).mpr ⟨k, b, hk, hhas⟩
      exact not_exact_of_lost ha (fun k' b' h' => (held_of_update_none h').2) hk
        (Function.update_self _ _ _) hhas hm hexact
    · intro i hi hbehind
      by_contra hm
      rw [Bool.not_eq_false] at hm
      obtain ⟨k', b', hheld, hhas⟩ := (h _).mp hm
      have hne : k' ≠ k := by
        rintro rfl
        cases hk.symm.trans hheld
        exact absurd hhas.2 (by omega)
      -- another holder's page is gone
      have hgone := (hexact _).mpr ⟨k', b', (Function.update_of_ne hne _ _).trans hheld, hhas⟩
      unfold unmapPages at hgone
      rw [if_pos (by omega)] at hgone
      cases hgone
  · rintro ⟨hlen, hfree⟩ q
    unfold unmapPages
    by_cases hq : b.start ≤ q ∧ q < b.start + n
    · rw [if_pos hq]
      constructor
      · intro hno
        cases hno
      · rintro ⟨k', b', hheld, hhas⟩
        obtain ⟨hne, hold⟩ := held_of_update_none hheld
        have hm := (h q).mpr ⟨k', b', hold, hhas⟩
        have hout : ¬ b.Has q := fun hb => hne (ha k' k b' b q hold hk hhas hb)
        have hbehind : b.len ≤ q - b.start := by
          by_contra hin
          exact hout ⟨hq.1, by omega⟩
        have hnot := hfree (q - b.start) (by omega) hbehind
        rw [Nat.add_sub_cancel' hq.1, hm] at hnot
        cases hnot
    · rw [if_neg hq, h q]
      constructor
      · rintro ⟨k', b', hheld, hhas⟩
        have hne : k' ≠ k := by
          rintro rfl
          cases hk.symm.trans hheld
          exact hq ⟨hhas.1, by have := hhas.2; omega⟩
        exact ⟨k', b', (Function.update_of_ne hne _ _).trans hheld, hhas⟩
      · rintro ⟨k', b', hheld, hhas⟩
        exact ⟨k', b', (held_of_update_none hheld).2, hhas⟩

end SServer.Lib
