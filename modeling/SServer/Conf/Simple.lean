import Mathlib.Logic.Function.Basic
import SServer.Conf.Scan

/-!
# SServer.Conf.Simple — `simple.conf`

`load_simple_data` reads a key and a value from each line by `sscanf` and puts them into a
hash table. It does not look at what `sscanf` returns: a line with one word is put in with
the value that is in `value[]`, a line without one with the key that is in `key[]` as well.
Both are not initialized before the first line, and empty behind each line. What stands
behind the last newline is no line for it.

The result: the table is the one that a reading line by line and word by word gives,
exactly when no line lacks its words and nothing new stands behind the last newline. It is
about texts whose keys and values have room in their buffers.

* `complete_table`, `incomplete_table`: lines with both words, and lines without.
* `simple_conf_iff`: the result, for all such texts and whatever the buffers hold at first.
* `lineAB_not_loaded`: a file of one line without a newline: its key is not there.

The reference table is written from what the format is meant to say: a key and a value a line,
and the last one counts. The hash table is a finite map.
-/

namespace SServer.Conf

open SServer.Lib

/-! ## The loader -/

/-- `isspace`. -/
def isSpace (c : UInt8) : Bool := decide (c = 32 ∨ 9 ≤ c ∧ c ≤ 13)

/-- A hash table from strings to strings. -/
abbrev ConfTable := List UInt8 → Option (List UInt8)

/-- `sizeof(key)`. -/
def keySize : Nat := 64

/-- `sizeof(value)`. -/
def valueSize : Nat := 128

/-- The buffers of `load_simple_data`, and `sim_data`. `outside` tells of a string that had
no room in its buffer. -/
structure SimData where
  key : List UInt8
  value : List UInt8
  table : ConfTable
  outside : Bool

/-- Before the loop: the buffers hold any strings. -/
def simpleInit (key value : List UInt8) : SimData :=
  { key := key, value := value, table := fun _ => none, outside := false }

/-- `sscanf(line, "%s %s\n", key, value)`. -/
def scanPair (line : List UInt8) (d : SimData) : SimData :=
  match nextWord isSpace line with
  | none => d
  | some (key, rest) =>
    let d := { d with key := key, outside := d.outside || decide (keySize ≤ key.length) }
    match nextWord isSpace rest with
    | none => d
    | some (value, _) =>
      { d with value := value, outside := d.outside || decide (valueSize ≤ value.length) }

/-- What `load_simple_data` does with a line. -/
def simpleLine : OnLine SimData := fun _ line d =>
  let d := scanPair line d
  -- the `memset`s
  { d with key := [], value := [], table := Function.update d.table d.key (some d.value) }

/-- `load_simple_data` builds `table` and stays in its buffers, when `key[]` and `value[]`
hold these strings at its beginning. -/
def LoadsSimple (m : Mapping) (key value : List UInt8) (table : ConfTable) : Prop :=
  ∃ d, Scans m simpleLine (scanInit (simpleInit key value)) (.done d) ∧ d.table = table ∧
    d.outside = false

/-! ## The reference -/

/-- A line maps its first word to its second. -/
def refLine (t : ConfTable) (line : List UInt8) : ConfTable :=
  match words isSpace line with
  | key :: value :: _ => Function.update t key (some value)
  | _ => t

/-- What lines make of a table. -/
def refLines (t : ConfTable) (lines : List (List UInt8)) : ConfTable :=
  (lines.filter fun l => Kept l).foldl refLine t

/-- The table of a text. -/
def refTable (text : List UInt8) : ConfTable := refLines (fun _ => none) (text.splitOn newline)

/-- The words of a line have room in `key[]` and `value[]`. -/
def HasRoom (line : List UInt8) : Prop :=
  (∀ key ∈ (words isSpace line)[0]?, key.length < keySize) ∧
    ∀ value ∈ (words isSpace line)[1]?, value.length < valueSize

instance (line : List UInt8) : Decidable (HasRoom line) := inferInstanceAs (Decidable (_ ∧ _))

/-! ## The condition -/

/-- A line sets a key. -/
def Sets (key line : List UInt8) : Prop := ∃ value rest, words isSpace line = key :: value :: rest

/-- Each line has a word, and one that has no second is followed by one that sets its
key. -/
def Complete : List (List UInt8) → Prop
  | [] => True
  | l :: ls =>
    (match words isSpace l with
      | [] => False
      | [key] => ∃ l' ∈ ls, Sets key l'
      | _ => True) ∧ Complete ls

/-- A line that is left out says nothing that the table does not say. -/
def TellsNothing (t : ConfTable) (l : List UInt8) : Prop :=
  Kept l → ∀ key value rest, words isSpace l = key :: value :: rest → t key = some value

/-- Every line is complete, and what stands behind the last newline tells nothing new. -/
def AllTold (text : List UInt8) : Prop :=
  Complete ((ended newline text).filter fun l => Kept l) ∧
    TellsNothing (refLines (fun _ => none) (ended newline text)) (unended newline text)

/-! ## Lines -/

/-- A line by the number of its words. -/
theorem simpleLine_table (i : Int) (l : List UInt8) (d : SimData) :
    (simpleLine i l d).table = match words isSpace l with
      | [] => Function.update d.table d.key (some d.value)
      | [key] => Function.update d.table key (some d.value)
      | key :: value :: _ => Function.update d.table key (some value) := by
  unfold simpleLine scanPair
  rw [words_eq]
  cases nextWord isSpace l with
  | none => rfl
  | some p =>
    rcases p with ⟨key, rest⟩
    simp only
    rw [words_eq]
    cases nextWord isSpace rest with
    | none => rfl
    | some q => rfl

/-- A line whose words have room stays in the buffers. -/
theorem simpleLine_outside (i : Int) {l : List UInt8} (hl : HasRoom l) (d : SimData) :
    (simpleLine i l d).outside = d.outside := by
  rcases hl with ⟨hkey, hvalue⟩
  unfold simpleLine scanPair
  cases hfirst : nextWord isSpace l with
  | none => rfl
  | some p =>
    rcases p with ⟨key, rest⟩
    have hwords : words isSpace l = key :: words isSpace rest := by
      rw [words_eq, hfirst]
    rw [hwords] at hkey hvalue
    have hshort := hkey key rfl
    cases hsecond : nextWord isSpace rest with
    | none =>
      simp only [hsecond, decide_eq_false (Nat.not_le.mpr hshort), Bool.or_false]
    | some q =>
      rw [words_eq, hsecond] at hvalue
      have hshort' := hvalue q.1 rfl
      simp only [hsecond, decide_eq_false (Nat.not_le.mpr hshort),
        decide_eq_false (Nat.not_le.mpr hshort'), Bool.or_false]

/-- A line has no word, or one, or a key and a value. -/
theorem words_cases (l : List UInt8) : words isSpace l = [] ∨
    (∃ key, words isSpace l = [key]) ∨
      ∃ key value rest, words isSpace l = key :: value :: rest := by
  cases words isSpace l with
  | nil => exact Or.inl rfl
  | cons key ws =>
    right
    cases ws with
    | nil => exact Or.inl ⟨key, rfl⟩
    | cons value rest => exact Or.inr ⟨key, value, rest, rfl⟩

/-- A line without a value sets no key. -/
theorem not_sets {key l : List UInt8} (h : words isSpace l = [] ∨ ∃ k, words isSpace l = [k]) :
    ¬ Sets key l := by
  rintro ⟨value, rest, hwords⟩
  rcases h with hnone | ⟨k, hone⟩
  · cases hnone.symm.trans hwords
  · cases hone.symm.trans hwords

/-- A line with a value sets its first word. -/
theorem sets_iff {key k v : List UInt8} {r : List (List UInt8)} {l : List UInt8}
    (h : words isSpace l = k :: v :: r) : Sets key l ↔ key = k := by
  constructor
  · rintro ⟨value, rest, hwords⟩
    exact (List.cons.inj (h.symm.trans hwords)).1.symm
  · rintro rfl
    exact ⟨v, r, h⟩

/-- No word is empty. -/
theorem words_ne_nil {sep : UInt8 → Bool} {l w : List UInt8} (h : w ∈ words sep l) : w ≠ [] := by
  have hmem := (List.mem_filter.mp h).2
  simpa using hmem

/-- **Complete lines** leave the table of the reference, where the two tables are equal
but for keys that are still to be set. -/
theorem complete_table : ∀ {ls : List (List UInt8)} {d : SimData} {t : ConfTable},
    Complete ls → (∀ key, d.table key = t key ∨ ∃ l ∈ ls, Sets key l) →
      (ls.foldl (fun d l => simpleLine 0 l d) d).table = ls.foldl refLine t := by
  intro ls
  induction ls with
  | nil =>
    intro d t _ h
    funext key
    rcases h key with heq | ⟨l, hl, _⟩
    · exact heq
    · cases hl
  | cons l ls ih =>
    intro d t hcomplete h
    rcases hcomplete with ⟨hline, hrest⟩
    rw [List.foldl_cons, List.foldl_cons]
    refine ih hrest fun key => ?_
    rw [simpleLine_table]
    unfold refLine
    have hlater : ¬ Sets key l → d.table key = t key ∨ ∃ l ∈ ls, Sets key l := by
      intro hnot
      rcases h key with heq | ⟨l', hl', hsets⟩
      · exact Or.inl heq
      · rcases List.mem_cons.mp hl' with rfl | hin
        · exact absurd hsets hnot
        · exact Or.inr ⟨l', hin, hsets⟩
    rcases words_cases l with hwords | ⟨k, hwords⟩ | ⟨k, v, r, hwords⟩
    · rw [hwords] at hline
      exact hline.elim
    · rw [hwords] at hline ⊢
      simp only
      by_cases hkey : key = k
      · -- a key that is to be set once more
        rw [hkey]
        exact Or.inr hline
      · rw [Function.update_of_ne hkey]
        exact hlater (not_sets (Or.inr ⟨k, hwords⟩))
    · rw [hwords]
      simp only
      by_cases hkey : key = k
      · rw [hkey, Function.update_self, Function.update_self]
        exact Or.inl rfl
      · rw [Function.update_of_ne hkey, Function.update_of_ne hkey]
        refine hlater fun hsets => ?_
        exact hkey ((sets_iff hwords).mp hsets)

/-- An empty value stays until its key is set. -/
theorem empty_stays : ∀ {ls : List (List UInt8)} {d : SimData} {key : List UInt8},
    d.value = [] → d.table key = some [] → (∀ l ∈ ls, ¬ Sets key l) →
      (ls.foldl (fun d l => simpleLine 0 l d) d).table key = some [] := by
  intro ls
  induction ls with
  | nil =>
    intro d key _ h _
    exact h
  | cons l ls ih =>
    intro d key hvalue h hnot
    rw [List.foldl_cons]
    refine ih ?_ ?_ fun l' hl' => hnot l' (List.mem_cons_of_mem l hl')
    · rfl
    · rw [simpleLine_table]
      rcases words_cases l with hwords | ⟨k, hwords⟩ | ⟨k, v, r, hwords⟩
      · simp only [hwords, hvalue, Function.update_apply, h, ite_self]
      · simp only [hwords, hvalue, Function.update_apply, h, ite_self]
      · have hne : key ≠ k := fun hkey => hnot l List.mem_cons_self ((sets_iff hwords).mpr hkey)
        rw [hwords]
        simp only
        rw [Function.update_of_ne hne, h]

/-- **Lines that are not complete** leave an empty value. -/
theorem incomplete_table : ∀ {ls : List (List UInt8)} {d : SimData},
    d.key = [] → d.value = [] → ¬ Complete ls →
      ∃ key, (ls.foldl (fun d l => simpleLine 0 l d) d).table key = some [] := by
  intro ls
  induction ls with
  | nil =>
    intro d _ _ h
    exact absurd trivial h
  | cons l ls ih =>
    intro d hkey hvalue h
    rw [List.foldl_cons]
    by_cases hrest : Complete ls
    swap
    · refine ih ?_ ?_ hrest
      · rfl
      · rfl
    -- so it is the first line that lacks its words
    have hline := fun hline => h ⟨hline, hrest⟩
    rcases words_cases l with hwords | ⟨k, hwords⟩ | ⟨k, v, r, hwords⟩
    · refine ⟨[], empty_stays ?_ ?_ fun l' _ hsets => ?_⟩
      · rfl
      · rw [simpleLine_table, hwords]
        simp only [hkey, hvalue, Function.update_self]
      · rcases hsets with ⟨v, r, hwords'⟩
        have hmem : [] ∈ words isSpace l' := by
          rw [hwords']
          exact List.mem_cons_self
        exact words_ne_nil hmem rfl
    · rw [hwords] at hline
      refine ⟨k, empty_stays ?_ ?_ fun l' hl' hsets => hline ⟨l', hl', hsets⟩⟩
      · rfl
      · rw [simpleLine_table, hwords]
        simp only [hvalue, Function.update_self]
    · rw [hwords] at hline
      exact (hline trivial).elim

/-- The reference has no empty values. -/
theorem refLines_ne_nil : ∀ {ls : List (List UInt8)} {t : ConfTable},
    (∀ key, t key ≠ some []) → ∀ key, ls.foldl refLine t key ≠ some [] := by
  intro ls
  induction ls with
  | nil =>
    intro t h
    exact h
  | cons l ls ih =>
    intro t h
    rw [List.foldl_cons]
    refine ih fun key => ?_
    unfold refLine
    rcases words_cases l with hwords | ⟨k, hwords⟩ | ⟨k, v, r, hwords⟩
    · rw [hwords]
      exact h key
    · rw [hwords]
      exact h key
    · simp only [hwords, Function.update_apply]
      split
      · intro hnil
        have hmem : [] ∈ words isSpace l := by
          rw [hwords, ← Option.some.inj hnil]
          exact List.mem_cons_of_mem _ List.mem_cons_self
        exact words_ne_nil hmem rfl
      · exact h key

/-! ## The result -/

/-- The lines that are kept, without their places. -/
theorem keptLines_lines (p : Int) (t : List UInt8) :
    (keptLines p t).map (·.2) = (ended newline t).filter fun l => Kept l := by
  unfold keptLines
  generalize ended newline t = ls
  induction ls generalizing p with
  | nil => rfl
  | cons l ls ih =>
    rw [offsets, List.filter_cons, List.filter_cons]
    by_cases hkept : Kept l
    · rw [if_pos (decide_eq_true hkept), if_pos (decide_eq_true hkept), List.map_cons, ih]
    · rw [if_neg (by simpa using hkept), if_neg (by simpa using hkept), ih]

/-- The loop makes of a text what its kept lines make of the table. -/
theorem feed_simple (t : List UInt8) (d : SimData) :
    feed simpleLine 0 t d =
      ((ended newline t).filter fun l => Kept l).foldl (fun d l => simpleLine 0 l d) d := by
  rw [← keptLines_lines 0 t, List.foldl_map]
  rfl

/-- A text without a zero byte that the mapping holds is walked over to its end. -/
theorem scanned_eq {pg : Nat} {text : List UInt8} (hz : 0 ∉ text)
    (hin : text.length < roundUp pg mmapLen) : scanned pg text = text := by
  unfold scanned
  rw [List.take_of_length_le (Nat.le_of_lt hin), List.takeWhile_eq_self_iff]
  intro c hc
  exact decide_eq_true fun hzero => hz (hzero ▸ hc)

/-- A text that ends inside the mapping, without a zero, is scanned whole. -/
theorem scanned_of_endsInside {pg : Nat} {text : List UInt8} (hz : 0 ∉ text)
    (hends : EndsInside pg text) : scanned pg text = text := by
  rcases hends with hzero | ⟨_, hin⟩
  · exact absurd (List.mem_of_mem_take hzero) hz
  · exact scanned_eq hz hin

/-- The lines that are ended have room if all lines have. -/
theorem linesFit_of_splitOn {t : List UInt8}
    (h : ∀ l ∈ t.splitOn newline, (l.length : Int) < lineSize) : LinesFit t := by
  intro l hl _
  refine h l ?_
  rw [splitOn_eq_ended]
  exact List.mem_append_left _ hl

/-- The table of a text is that of its ended lines, and what stands behind them. -/
theorem refTable_eq (text : List UInt8) :
    refTable text = if Kept (unended newline text) then
        refLine (refLines (fun _ => none) (ended newline text)) (unended newline text)
      else refLines (fun _ => none) (ended newline text) := by
  unfold refTable refLines
  rw [splitOn_eq_ended, List.filter_append, List.foldl_append, List.filter_singleton]
  by_cases hkept : Kept (unended newline text)
  · rw [if_pos hkept, decide_eq_true hkept]
    rfl
  · rw [if_neg hkept, decide_eq_false hkept]
    rfl

/-- What is left out changes the table unless it tells nothing new. -/
theorem refTable_iff (text : List UInt8) :
    refTable text = refLines (fun _ => none) (ended newline text) ↔
      TellsNothing (refLines (fun _ => none) (ended newline text)) (unended newline text) := by
  rw [refTable_eq]
  generalize refLines (fun _ => none) (ended newline text) = t
  generalize unended newline text = l
  unfold TellsNothing
  by_cases hkept : Kept l
  swap
  · rw [if_neg hkept]
    exact ⟨fun _ h => absurd h hkept, fun _ => rfl⟩
  rw [if_pos hkept]
  constructor
  · intro h _ key value rest hwords
    rw [refLine, hwords] at h
    rw [← h]
    exact Function.update_self key (some value) t
  · intro h
    unfold refLine
    rcases words_cases l with hwords | ⟨k, hwords⟩ | ⟨k, v, r, hwords⟩
    · rw [hwords]
    · rw [hwords]
    · rw [hwords]
      simp only
      rw [← h hkept k v r hwords, Function.update_eq_self]

/-- Lines whose words have room stay in the buffers. -/
theorem lines_outside {ls : List (List UInt8)} (hroom : ∀ l ∈ ls, HasRoom l) (d : SimData) :
    (ls.foldl (fun d l => simpleLine 0 l d) d).outside = d.outside := by
  induction ls generalizing d with
  | nil => rfl
  | cons l ls ih =>
    rw [List.forall_mem_cons] at hroom
    rw [List.foldl_cons, ih hroom.2, simpleLine_outside 0 hroom.1]

/-- **`simple.conf`.** For a text of lines that have room, in front of a zero byte, with
keys and values that have room, `load_simple_data` builds the table of the reference,
whatever its buffers hold at first, exactly when every line is told. -/
theorem simple_conf_iff {pg : Nat} {text : List UInt8} (hpg : 0 < pg) (hz : 0 ∉ text)
    (hlast : text.length % pg ≠ 0) (hin : text.length < roundUp pg mmapLen)
    (hfit : ∀ l ∈ text.splitOn newline, (l.length : Int) < lineSize)
    (hroom : ∀ l ∈ text.splitOn newline, Kept l → HasRoom l) :
    (∀ key value, LoadsSimple (mmapFile pg text) key value (refTable text)) ↔ AllTold text := by
  have hends : EndsInside pg text := Or.inr ⟨hlast, hin⟩
  have hinside : ∀ l ∈ (ended newline text).filter fun l => Kept l, HasRoom l := by
    intro l hl
    rw [List.mem_filter, decide_eq_true_eq] at hl
    refine hroom l ?_ hl.2
    rw [splitOn_eq_ended]
    exact List.mem_append_left _ hl.1
  have hloads : ∀ key value table, LoadsSimple (mmapFile pg text) key value table ↔
      (((ended newline text).filter fun l => Kept l).foldl (fun d l => simpleLine 0 l d)
        (simpleInit key value)).table = table := by
    intro key value table
    unfold LoadsSimple
    simp only [mapped_done_iff hpg, scanned_eq hz hin, feed_simple]
    constructor
    · rintro ⟨d, ⟨_, _, rfl⟩, htable, _⟩
      exact htable
    · intro htable
      exact ⟨_, ⟨hends, linesFit_of_splitOn hfit, rfl⟩, htable, lines_outside hinside _⟩
  simp only [hloads]
  have hagree : ∀ key value : List UInt8,
      Complete ((ended newline text).filter fun l => Kept l) →
        (((ended newline text).filter fun l => Kept l).foldl (fun d l => simpleLine 0 l d)
          (simpleInit key value)).table = refLines (fun _ => none) (ended newline text) :=
    fun key value hcomplete => complete_table hcomplete fun _ => Or.inl rfl
  constructor
  · intro h
    have hcomplete : Complete ((ended newline text).filter fun l => Kept l) := by
      by_contra hnot
      obtain ⟨key, hkey⟩ := incomplete_table (d := simpleInit [] []) rfl rfl hnot
      rw [h [] []] at hkey
      refine refLines_ne_nil (fun _ hnone => ?_) key hkey
      cases hnone
    refine ⟨hcomplete, (refTable_iff text).mp ?_⟩
    rw [← h [] [], hagree [] [] hcomplete]
  · rintro ⟨hcomplete, htold⟩ key value
    rw [hagree key value hcomplete, (refTable_iff text).mpr htold]

/-- The lines `# a`, `a b`, `c`, `a d` and `c e`, each with its newline: a comment, a key
without a value, and two keys that are set again behind it. -/
def fiveLines : List UInt8 :=
  [hash, 32, 97, newline, 97, 32, 98, newline, 99, newline, 97, 32, 100, newline,
    99, 32, 101, newline]

/-- Every line of it is told, and the last value of each key is in the table. -/
theorem simple_conf_iff_fiveLines : AllTold fiveLines ∧
    refTable fiveLines [97] = some [100] ∧ refTable fiveLines [99] = some [101] ∧
    ∀ key value, LoadsSimple (mmapFile 4096 fiveLines) key value (refTable fiveLines) := by
  have hlines : (ended newline fiveLines).filter (fun l => Kept l) =
      [[97, 32, 98], [99], [97, 32, 100], [99, 32, 101]] := by
    decide
  have hlast : unended newline fiveLines = [] := by decide
  have hab : words isSpace [97, 32, 98] = [[97], [98]] := by decide
  have hc : words isSpace [99] = [[99]] := by decide
  have had : words isSpace [97, 32, 100] = [[97], [100]] := by decide
  have hce : words isSpace [99, 32, 101] = [[99], [101]] := by decide
  have htold : AllTold fiveLines := by
    refine ⟨?_, ?_⟩
    · rw [hlines]
      simp only [Complete, hab, hc, had, hce, true_and, and_true]
      exact ⟨[99, 32, 101], by simp, [101], [], hce⟩
    · rw [hlast]
      exact fun hkept => absurd rfl hkept.1
  refine ⟨htold, by decide, by decide, ?_⟩
  exact (simple_conf_iff (by decide) (by decide) (by decide) (by decide) (by decide)
    (by decide)).mpr htold

/-- The line `a b`. -/
def lineAB : List UInt8 := [97, 32, 98]

/-- Without a newline behind it the key `a` is not there. -/
theorem lineAB_not_loaded :
    ¬ ∀ key value, LoadsSimple (mmapFile 4096 lineAB) key value (refTable lineAB) := by
  intro h
  obtain ⟨d, hd, htable, _⟩ := h [] []
  obtain ⟨_, _, rfl⟩ := (mapped_done_iff (by decide) lineAB _ d).mp hd
  have hnone : (feed simpleLine 0 (scanned 4096 lineAB) (simpleInit [] [])).table [97] = none := by
    decide
  have hsome : refTable lineAB [97] = some [98] := by decide
  rw [htable, hsome] at hnone
  cases hnone

end SServer.Conf
