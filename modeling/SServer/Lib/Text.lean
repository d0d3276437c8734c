import Mathlib.Data.List.TakeWhile
import Mathlib.Tactic.Common

/-!
# SServer.Lib.Text — lines and words of a list

A text is a list of letters, and a delimiter ends its lines: `ended` are the lines that
have one behind them, `unended` is what stands behind the last. `offsets` tells for each
line where its delimiter stands. The words of a line are what its separators leave
between them; `nextWord` reads the first, as a scanner does.

The induction rule `lines_induction` takes a text line by line.

* `lines_induction`: line by line: the rule that the loaders are proved with.
* `ended_line`, `ended_append_leading`: the ended lines of a text with one more line in front,
  or with more text behind.
* `words_eq`: the words of a line are those that `nextWord` reads one after another.

The letters are of any type; what separates them is a parameter.
-/

namespace SServer.Lib

universe u

/-! ## Lines -/

section Lines

variable {α : Type u} [DecidableEq α]

/-- The lines that a delimiter ends. -/
def ended (d : α) (t : List α) : List (List α) := (t.splitOn d).dropLast

/-- What stands behind the last delimiter. -/
def unended (d : α) (t : List α) : List α := (t.splitOn d).getLastD []

/-- A text without a delimiter has no ended line. -/
theorem ended_of_not_mem {d : α} {l : List α} (h : d ∉ l) : ended d l = [] := by
  unfold ended
  rw [List.splitOn_eq_singleton h]
  rfl

/-- A line in front of a text is the first of its ended lines. -/
theorem ended_line {d : α} {l : List α} (h : d ∉ l) (t : List α) :
    ended d (l ++ d :: t) = l :: ended d t := by
  unfold ended
  rw [List.splitOn_append_cons_self_of_not_mem h,
    List.dropLast_cons_of_ne_nil (List.splitOn_ne_nil d t)]

/-- All lines: those that are ended, and the last. -/
theorem splitOn_eq_ended (d : α) (t : List α) : t.splitOn d = ended d t ++ [unended d t] := by
  have hne := List.splitOn_ne_nil d t
  unfold ended unended
  rw [List.getLastD_eq_getLast?, List.getLast?_eq_some_getLast hne, Option.getD_some,
    List.dropLast_concat_getLast]

/-- **Line by line.** What holds of a text without a delimiter, and of a line in front of a
text it holds of, holds of every text. -/
theorem lines_induction {d : α} {P : List α → Prop} (last : ∀ l, d ∉ l → P l)
    (line : ∀ l t, d ∉ l → P t → P (l ++ d :: t)) (t : List α) : P t := by
  induction hn : t.length using Nat.strongRecOn generalizing t with
  | ind n ih =>
    by_cases hmem : d ∈ t
    · obtain ⟨l, r, rfl, hl⟩ := List.eq_append_cons_of_mem hmem
      refine line l r hl (ih r.length ?_ r rfl)
      rw [← hn, List.length_append, List.length_cons]
      omega
    · exact last t hmem

/-- The lines that are ended stay when the text goes on. -/
theorem ended_append_leading (d : α) (t r : List α) : ended d t <+: ended d (t ++ r) := by
  induction t using lines_induction (d := d) with
  | last l hl =>
    rw [ended_of_not_mem hl]
    exact List.nil_prefix
  | line l t hl ih =>
    rw [List.append_assoc, List.cons_append, ended_line hl, ended_line hl]
    exact (List.prefix_cons_inj l).mpr ih

/-- The lines with the places of their delimiters, the first of them beginning at `p`. -/
def offsets (p : Int) : List (List α) → List (Int × List α)
  | [] => []
  | l :: ls => (p + l.length, l) :: offsets (p + l.length + 1) ls

end Lines

/-! ## Words -/

section Words

variable {α : Type u}

/-- The words between the separators. -/
def words (sep : α → Bool) (l : List α) : List (List α) := (l.splitOnP sep).filter (· ≠ [])

/-- Skip separators, and read a word up to the next one. -/
def nextWord (sep : α → Bool) (l : List α) : Option (List α × List α) :=
  match l.dropWhile sep with
  | [] => none
  | c :: r => some ((c :: r).takeWhile (!sep ·), (c :: r).dropWhile (!sep ·))

/-- A separator in front makes no difference to the words. -/
theorem words_sep {sep : α → Bool} {c : α} (hc : sep c = true) (l : List α) :
    words sep (c :: l) = words sep l := by
  unfold words
  rw [List.splitOnP_cons_eq_if_modifyHead, if_pos hc]
  rfl

/-- Separators in front do not count. -/
theorem words_dropWhile (sep : α → Bool) (l : List α) :
    words sep (l.dropWhile sep) = words sep l := by
  induction l with
  | nil => rfl
  | cons c l ih =>
    by_cases hc : sep c = true
    · rw [List.dropWhile_cons_of_pos hc, words_sep hc, ih]
    · rw [List.dropWhile_cons_of_neg hc]

/-- A word that ends with the line or at a separator is the first. -/
theorem words_append {sep : α → Bool} {w r : List α} (hne : w ≠ []) (hw : ∀ c ∈ w, sep c = false)
    (hr : ∀ c ∈ r.head?, sep c = true) : words sep (w ++ r) = w :: words sep r := by
  cases r with
  | nil =>
    unfold words
    rw [List.append_nil, List.splitOnP_eq_singleton hw]
    simp [hne]
  | cons c r =>
    have hc := hr c rfl
    rw [words_sep hc]
    unfold words
    rw [List.splitOnP_append_cons_of_forall_mem hw c hc]
    simp [hne]

/-- **The words of a line** are those that are read one after another. -/
theorem words_eq (sep : α → Bool) (l : List α) :
    words sep l = match nextWord sep l with
      | none => []
      | some (w, r) => w :: words sep r := by
  rw [← words_dropWhile]
  unfold nextWord
  cases hdrop : l.dropWhile sep with
  | nil => rfl
  | cons c r =>
    simp only
    have hc : sep c = false := by
      have hhead := List.head?_dropWhile_not sep l
      rw [hdrop] at hhead
      simpa using hhead
    rw [← @words_append α sep]
    · rw [List.takeWhile_append_dropWhile]
    · rw [List.takeWhile_cons_of_pos (by simp [hc])]
      exact List.cons_ne_nil _ _
    · intro x hx
      simpa using List.mem_takeWhile_imp hx
    · intro x hx
      have hhead := List.head?_dropWhile_not (fun x => !sep x) (c :: r)
      rw [hx] at hhead
      simpa using hhead

/-- The first word is the next one read, and the others are those of what is left. -/
theorem words_eq_cons {sep : α → Bool} {l w : List α} {ws : List (List α)}
    (h : words sep l = w :: ws) : ∃ r, nextWord sep l = some (w, r) ∧ words sep r = ws := by
  rw [words_eq] at h
  cases hnext : nextWord sep l with
  | none =>
    rw [hnext] at h
    cases h
  | some p =>
    rcases p with ⟨w', r⟩
    rw [hnext] at h
    cases h
    exact ⟨r, rfl, rfl⟩

end Words

end SServer.Lib
