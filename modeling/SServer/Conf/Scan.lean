import SServer.Lib.Loop
import SServer.Lib.Mem
import SServer.Lib.Text

/-!
# SServer.Conf.Scan — the loop over a mapped configuration file

`load_simple_data` and `load_work_data` walk over their file with one and the same loop:
`start`, `i` and `is_note` tell where the line began, where the loop is and whether there
was a `#`, and at a newline the line is copied and handed on. The loop ends at a zero byte.

The file is mapped with a fixed length. Its bytes are followed by zeros up to the end of
its last page, and nothing behind that page or behind the mapping can be read.

The result: a loop that comes to a zero byte, with no line too long for `line[]` before it,
has handed on each line that is ended, not empty and without `#`; any other loop reads or
writes where it must not.

* `scans_line`, `scans_text`: a line with its newline, and a text of such lines: what is handed
  on and where the loop stands.
* `scans_done_iff`: the loop over a text in front of a zero byte.
* `mapped_done_iff`: the loop over a mapped file, of any size, on pages of any size.

The loop is the one of both loaders; what they make of a line is a parameter.
-/

namespace SServer.Conf

open SServer.Lib

universe u

/-! ## The mapping -/

/-- The memory behind `ptr`, and how many bytes of it can be read. -/
structure Mapping where
  mem : Mem
  len : Int

/-- `ptr[i]`, where it can be read. -/
def Mapping.read (m : Mapping) (i : Int) : Option UInt8 :=
  if 0 ≤ i ∧ i < m.len then some (m.mem i) else none

/-- A size in bytes up to the end of its last page. -/
def roundUp (pg n : Nat) : Nat := (n + pg - 1) / pg * pg

/-- The length of the mapping. -/
def mmapLen : Nat := 1024 * 10

/-- The file mapped with pages of `pg` bytes. -/
def mmapFile (pg : Nat) (file : List UInt8) : Mapping :=
  { mem := ofBytes file
    len := min (roundUp pg file.length) (roundUp pg mmapLen) }

/-! ## The loop -/

/-- The locals of the loop, and what the function makes of the lines. -/
structure Scan (σ : Type u) where
  start : Int
  stop : Int
  i : Int
  isNote : Bool
  data : σ

/-- How the loop ends: at a zero byte, at a byte that cannot be read, or with a line that
is longer than `line[]` has room for. -/
inductive ScanEnd (σ : Type u) where
  | done (data : σ)
  | unreadable (i : Int)
  | overrun (len : Int)

/-- What a loader does with a line: the position of its newline, and its bytes. -/
abbrev OnLine (σ : Type u) := Int → List UInt8 → σ → σ

/-- `sizeof(line)`. -/
def lineSize : Int := 1024

/-- `'#'`. -/
def hash : UInt8 := 35

/-- `'\n'`. -/
def newline : UInt8 := 10

variable {σ : Type u}

/-- One pass of the loop. -/
def scanTurn (m : Mapping) (onLine : OnLine σ) (s : Scan σ) : Turn (Scan σ) (ScanEnd σ) :=
  match m.read s.i with
  | none => .stop (.unreadable s.i)
  | some c =>
    if c = 0 then .stop (.done s.data)
    else if c = hash then .again { s with isNote := true, i := s.i + 1 }
    else if c = newline then
      let stop := s.i - 1
      if s.isNote then
        let start := s.i + 1
        -- `i = start - 1`, and then the `i++` of the loop
        .again { s with start := start, stop := stop, i := start - 1 + 1, isNote := false }
      else
        let len := stop - s.start + 1
        if len = 0 then
          .again { s with start := s.i + 1, stop := stop, i := s.i + 1, isNote := false }
        else if lineSize ≤ len then
          -- the `memcpy`, or the terminator behind it, leaves `line[]`
          .stop (.overrun len)
        else
          let line := bytes (m.mem.ptr s.start) len
          .again
            { start := s.i + 1
              stop := stop
              i := s.i + 1
              isNote := false
              data := onLine s.i line s.data }
    else .again { s with i := s.i + 1 }

/-- The loop entered at `s` ends with `r`. -/
def Scans (m : Mapping) (onLine : OnLine σ) (s : Scan σ) (r : ScanEnd σ) : Prop :=
  ∃ n, turns (fun _ => scanTurn m onLine) s n = .stop r

/-- The loop at the beginning of a line. -/
def lineStart (p stop : Int) (data : σ) : Scan σ :=
  { start := p, stop := stop, i := p, isNote := false, data := data }

/-- The loop as it is entered. -/
def scanInit (data : σ) : Scan σ := lineStart 0 0 data

/-- The loop reads what it may read, stops, and copies what `line[]` has room for. -/
def ScansSafely (m : Mapping) (onLine : OnLine σ) (data : σ) : Prop :=
  ∃ d, Scans m onLine (scanInit data) (.done d)

/-! ## The lines -/

/-- A line that is handed on. -/
def Kept (l : List UInt8) : Prop := l ≠ [] ∧ hash ∉ l

instance (l : List UInt8) : Decidable (Kept l) := inferInstanceAs (Decidable (_ ∧ _))

/-- Every line that is handed on has room in `line[]`. -/
def LinesFit (t : List UInt8) : Prop :=
  ∀ l ∈ ended newline t, Kept l → (l.length : Int) < lineSize

/-- The lines that are handed on, with the positions of their newlines. -/
def keptLines (p : Int) (t : List UInt8) : List (Int × List UInt8) :=
  (offsets p (ended newline t)).filter fun x => Kept x.2

/-- What the lines of a text at `p` make of `data`. -/
def feed (onLine : OnLine σ) (p : Int) (t : List UInt8) (data : σ) : σ :=
  (keptLines p t).foldl (fun data x => onLine x.1 x.2 data) data

/-! ## Passes -/

variable {m : Mapping} {onLine : OnLine σ}

/-- A turn that goes on may be left out. -/
theorem scans_again {s t : Scan σ} (h : scanTurn m onLine s = .again t) (r : ScanEnd σ) :
    Scans m onLine s r ↔ Scans m onLine t r := by
  constructor
  · rintro ⟨n, hn⟩
    cases n with
    | zero => cases hn
    | succ n =>
      rw [turns_const_succ h] at hn
      exact ⟨n, hn⟩
  · rintro ⟨n, hn⟩
    refine ⟨n + 1, ?_⟩
    rw [turns_const_succ h]
    exact hn

/-- A turn that ends decides. -/
theorem scans_stop {s : Scan σ} {r : ScanEnd σ} (h : scanTurn m onLine s = .stop r)
    (r' : ScanEnd σ) : Scans m onLine s r' ↔ r' = r := by
  have hone : turns (fun _ => scanTurn m onLine) s 1 = .stop r := h
  constructor
  · rintro ⟨n, hn⟩
    exact turns_stop_unique hn hone
  · rintro rfl
    exact ⟨1, hone⟩

/-- The bytes of `l` can be read at `p`. -/
def Reads (m : Mapping) (p : Int) (l : List UInt8) : Prop :=
  0 ≤ p ∧ p + l.length ≤ m.len ∧ bytes (m.mem.ptr p) l.length = l

/-- What is read at once is read in two parts. -/
theorem Reads.append {p : Int} {l r : List UInt8} (h : Reads m p (l ++ r)) :
    Reads m p l ∧ Reads m (p + l.length) r := by
  rcases h with ⟨h0, hlen, hbytes⟩
  rw [List.length_append] at hlen
  rcases bytes_split (by omega) hbytes with ⟨hl, hr⟩
  rw [List.length_append, Mem.ptr_ptr] at hr
  refine ⟨⟨h0, by omega, hl⟩, by omega, by omega, ?_⟩
  have hsub : (((l.length + r.length : Nat) : Int) - l.length) = r.length := by omega
  rwa [hsub] at hr

/-- The first byte. -/
theorem Reads.head {p : Int} {c : UInt8} {l : List UInt8} (h : Reads m p (c :: l)) :
    m.read p = some c := by
  rcases h with ⟨h0, hlen, hbytes⟩
  rw [List.length_cons] at hlen
  have hget := bytes_getElem? (p := m.mem.ptr p) (n := (c :: l).length) (i := 0)
    (by rw [List.length_cons]; omega)
  rw [hbytes] at hget
  unfold Mapping.read
  rw [if_pos ⟨h0, by omega⟩]
  simpa using hget.symm

/-- The others. -/
theorem Reads.tail {p : Int} {c : UInt8} {l : List UInt8} (h : Reads m p (c :: l)) :
    Reads m (p + 1) l := Reads.append (l := [c]) h |>.2

/-- Over the bytes of a line the loop only moves on, and notes a `#`. -/
theorem scans_chars {l : List UInt8} (hn : newline ∉ l) (hz : 0 ∉ l) (r : ScanEnd σ) :
    ∀ {s : Scan σ}, Reads m s.i l → (Scans m onLine s r ↔ Scans m onLine { s with
      i := s.i + l.length
      isNote := s.isNote || decide (hash ∈ l) } r) := by
  induction l with
  | nil =>
    intro s _
    simp
  | cons c l ih =>
    intro s h
    rw [List.mem_cons, not_or] at hn hz
    have hnext : scanTurn m onLine s =
        .again { s with i := s.i + 1, isNote := s.isNote || decide (hash = c) } := by
      unfold scanTurn
      rw [h.head]
      simp only
      rw [if_neg (Ne.symm hz.1)]
      by_cases hc : c = hash
      · rw [if_pos hc]
        simp [hc]
      · rw [if_neg hc, if_neg (Ne.symm hn.1)]
        simp [Ne.symm hc]
    rw [scans_again hnext, ih hn.2 hz.2 h.tail]
    have hsum : s.i + 1 + (l.length : Int) = s.i + ((c :: l).length : Nat) := by
      rw [List.length_cons]
      omega
    simp only [hsum, List.mem_cons, Bool.decide_or, Bool.or_assoc]

/-- At its newline a line is handed on, unless it is empty, has a `#`, or is too long. -/
theorem scans_newline {s : Scan σ} {l : List UInt8} (hread : m.read s.i = some newline)
    (hi : s.i = s.start + l.length) (hnote : s.isNote = decide (hash ∈ l))
    (hline : bytes (m.mem.ptr s.start) l.length = l) (d : σ) :
    Scans m onLine s (.done d) ↔ (Kept l → (l.length : Int) < lineSize) ∧
      Scans m onLine (lineStart (s.i + 1) (s.i - 1)
        (if Kept l then onLine s.i l s.data else s.data)) (.done d) := by
  have hlen : s.i - 1 - s.start + 1 = l.length := by omega
  have hback : s.i + 1 - 1 + 1 = s.i + 1 := by omega
  -- the turn of a newline, with the line in the place of the indices
  have hturn : scanTurn m onLine s =
      if s.isNote = true then .again (lineStart (s.i + 1) (s.i - 1) s.data)
      else if (l.length : Int) = 0 then .again (lineStart (s.i + 1) (s.i - 1) s.data)
      else if lineSize ≤ l.length then .stop (.overrun l.length)
      else .again (lineStart (s.i + 1) (s.i - 1) (onLine s.i l s.data)) := by
    unfold scanTurn
    simp only [hread]
    rw [if_neg (by decide), if_neg (by decide), if_pos trivial, hlen, hback, hline]
    rfl
  by_cases hhash : hash ∈ l
  · have hdrop : ¬ Kept l := fun hkept => hkept.2 hhash
    rw [hnote, if_pos (decide_eq_true hhash)] at hturn
    rw [scans_again hturn, if_neg hdrop]
    exact ⟨fun h => ⟨fun hkept => absurd hkept hdrop, h⟩, fun h => h.2⟩
  rw [hnote, if_neg (by simpa using hhash)] at hturn
  by_cases hempty : l = []
  · have hdrop : ¬ Kept l := fun hkept => hkept.1 hempty
    rw [if_pos (by simp [hempty])] at hturn
    rw [scans_again hturn, if_neg hdrop]
    exact ⟨fun h => ⟨fun hkept => absurd hkept hdrop, h⟩, fun h => h.2⟩
  -- from here the line is copied to `line[1024]`
  have hkept : Kept l := ⟨hempty, hhash⟩
  rw [if_neg (by simpa using hempty)] at hturn
  by_cases hlong : lineSize ≤ l.length
  · rw [if_pos hlong] at hturn
    rw [scans_stop hturn]
    constructor
    · intro h
      cases h
    · intro h
      have hshort := h.1 hkept
      omega
  · rw [if_neg hlong] at hturn
    rw [scans_again hturn, if_pos hkept]
    exact ⟨fun h => ⟨fun _ => by omega, h⟩, fun h => h.2⟩

/-- **A line** and its newline. -/
theorem scans_line {p stop : Int} {l : List UInt8} {data : σ} (hn : newline ∉ l) (hz : 0 ∉ l)
    (h : Reads m p (l ++ [newline])) (d : σ) :
    Scans m onLine (lineStart p stop data) (.done d) ↔
      (Kept l → (l.length : Int) < lineSize) ∧
        Scans m onLine (lineStart (p + l.length + 1) (p + l.length - 1)
          (if Kept l then onLine (p + l.length) l data else data)) (.done d) := by
  rw [scans_chars hn hz _ h.append.1]
  refine scans_newline h.append.2.head rfl ?_ h.append.1.2.2 d
  simp [lineStart]

/-- A line in front of a text: it has room if it is handed on, and so have the others. -/
theorem linesFit_line {l : List UInt8} (hn : newline ∉ l) (t : List UInt8) :
    LinesFit (l ++ newline :: t) ↔ (Kept l → (l.length : Int) < lineSize) ∧ LinesFit t := by
  unfold LinesFit
  rw [ended_line hn, List.forall_mem_cons]

/-- It is handed on with the place of its newline, and the others with theirs. -/
theorem keptLines_line {l : List UInt8} (hn : newline ∉ l) (p : Int) (t : List UInt8) :
    keptLines p (l ++ newline :: t) =
      (if Kept l then [(p + l.length, l)] else []) ++ keptLines (p + l.length + 1) t := by
  unfold keptLines
  rw [ended_line hn, offsets, List.filter_cons]
  by_cases hkept : Kept l
  · rw [if_pos (decide_eq_true hkept), if_pos hkept]
    rfl
  · rw [if_neg (by simpa using hkept), if_neg hkept]
    rfl

/-- What is made of it comes before what is made of the others. -/
theorem feed_line {l : List UInt8} (hn : newline ∉ l) (p : Int) (t : List UInt8) (data : σ) :
    feed onLine p (l ++ newline :: t) data = feed onLine (p + l.length + 1) t
      (if Kept l then onLine (p + l.length) l data else data) := by
  unfold feed
  rw [keptLines_line hn, List.foldl_append]
  by_cases hkept : Kept l
  · rw [if_pos hkept, if_pos hkept]
    rfl
  · rw [if_neg hkept, if_neg hkept]
    rfl

/-- **A text.** The loop comes to the byte behind it, when all lines have room. -/
theorem scans_text {t : List UInt8} (hz : 0 ∉ t) : ∀ {p stop : Int} {data : σ}, Reads m p t →
    ∃ s : Scan σ, s.i = p + t.length ∧ s.data = feed onLine p t data ∧ ∀ d,
      (Scans m onLine (lineStart p stop data) (.done d) ↔
        LinesFit t ∧ Scans m onLine s (.done d)) := by
  induction t using lines_induction (d := newline) with
  | last l hl =>
    intro p stop data h
    have hlines : ended newline l = [] := ended_of_not_mem hl
    refine ⟨{ lineStart p stop data with
      i := p + l.length, isNote := false || decide (hash ∈ l) }, rfl, ?_, fun d => ?_⟩
    · simp [feed, keptLines, hlines, offsets, lineStart]
    · rw [scans_chars hl hz _ h]
      have hfit : LinesFit l := by
        intro l' hl'
        rw [hlines] at hl'
        cases hl'
      exact ⟨fun hd => ⟨hfit, hd⟩, fun hd => hd.2⟩
  | line l t hl ih =>
    intro p stop data h
    rw [List.mem_append, List.mem_cons, not_or, not_or] at hz
    rw [List.append_cons] at h
    rcases h.append with ⟨hline, hrest⟩
    rw [List.length_append, List.length_singleton] at hrest
    have hat : p + ((l.length + 1 : Nat) : Int) = p + l.length + 1 := by omega
    rw [hat] at hrest
    rcases @ih hz.2.2 _ (p + l.length - 1)
      (if Kept l then onLine (p + l.length) l data else data) hrest with ⟨s, hi, hdata, hiff⟩
    refine ⟨s, ?_, ?_, fun d => ?_⟩
    · rw [hi, List.length_append, List.length_cons]
      omega
    · rw [hdata, feed_line hl]
    · rw [scans_line hl hz.1 hline, hiff, linesFit_line hl, and_assoc]

/-- **The loop over a text in front of a zero byte.** -/
theorem scans_done_iff {t : List UInt8} {data : σ} (hz : 0 ∉ t) (h : Reads m 0 t)
    (hend : m.read t.length = some 0) (d : σ) :
    Scans m onLine (scanInit data) (.done d) ↔ LinesFit t ∧ d = feed onLine 0 t data := by
  rcases @scans_text σ m onLine t hz 0 0 data h with ⟨s, hi, hdata, hiff⟩
  have hstop : scanTurn m onLine s = .stop (.done s.data) := by
    rw [Int.zero_add] at hi
    unfold scanTurn
    rw [hi, hend]
    rfl
  refine (hiff d).trans (and_congr_right fun _ => ?_)
  rw [scans_stop hstop, hdata]
  exact ⟨fun heq => ScanEnd.done.inj heq, fun heq => congrArg _ heq⟩

/-- Over a text in front of a byte that cannot be read. -/
theorem not_scans_done {t : List UInt8} {data : σ} (hz : 0 ∉ t) (h : Reads m 0 t)
    (hend : m.read t.length = none) (d : σ) : ¬ Scans m onLine (scanInit data) (.done d) := by
  rcases @scans_text σ m onLine t hz 0 0 data h with ⟨s, hi, _, hiff⟩
  have hstop : scanTurn m onLine s = .stop (.unreadable s.i) := by
    rw [Int.zero_add] at hi
    unfold scanTurn
    rw [hi, hend]
  intro hd
  have hdone := ((hiff d).mp hd).2
  rw [scans_stop hstop] at hdone
  cases hdone

/-! ## A mapped file -/

/-- What the loop walks over: the bytes of the file that are mapped, up to a zero byte. -/
def scanned (pg : Nat) (file : List UInt8) : List UInt8 :=
  (file.take (roundUp pg mmapLen)).takeWhile (· ≠ 0)

/-- There is a zero byte to be read: in the mapped part of the file, or behind it on its
last page. -/
def EndsInside (pg : Nat) (file : List UInt8) : Prop :=
  0 ∈ file.take (roundUp pg mmapLen) ∨
    file.length % pg ≠ 0 ∧ file.length < roundUp pg mmapLen

instance (pg : Nat) (file : List UInt8) : Decidable (EndsInside pg file) :=
  inferInstanceAs (Decidable (_ ∨ _ ∧ _))

/-- Up to the end of a page, by the bytes that are missing. -/
theorem roundUp_eq {pg : Nat} (hpg : 0 < pg) (n : Nat) :
    roundUp pg n = if n % pg = 0 then n else n + (pg - n % pg) := by
  have hdiv := Nat.div_add_mod n pg
  have hlt := Nat.mod_lt n hpg
  unfold roundUp
  by_cases hzero : n % pg = 0
  · rw [if_pos hzero]
    have hsum : n + pg - 1 = pg - 1 + pg * (n / pg) := by omega
    rw [hsum, Nat.add_mul_div_left _ _ hpg, Nat.div_eq_of_lt (by omega), Nat.zero_add,
      Nat.mul_comm]
    omega
  · rw [if_neg hzero]
    have hsum : n + pg - 1 = n % pg - 1 + pg * (n / pg + 1) := by
      rw [Nat.mul_add, Nat.mul_one]
      omega
    rw [hsum, Nat.add_mul_div_left _ _ hpg, Nat.div_eq_of_lt (by omega), Nat.zero_add,
      Nat.mul_comm, Nat.mul_add, Nat.mul_one]
    omega

/-- A file ends in its last page. -/
theorem le_roundUp {pg : Nat} (hpg : 0 < pg) (n : Nat) : n ≤ roundUp pg n := by
  rw [roundUp_eq hpg]
  split
  · exact Nat.le_refl n
  · exact Nat.le_add_right _ _

/-- There are bytes behind a file on its last page unless it fills its pages. -/
theorem lt_roundUp_iff {pg : Nat} (hpg : 0 < pg) (n : Nat) : n < roundUp pg n ↔ n % pg ≠ 0 := by
  have hlt := Nat.mod_lt n hpg
  rw [roundUp_eq hpg]
  split
  · next hzero => simp [hzero]
  · next hne =>
    refine ⟨fun _ => hne, fun _ => ?_⟩
    omega

/-- What is scanned is the beginning of the file. -/
theorem scanned_leading (pg : Nat) (file : List UInt8) : scanned pg file <+: file :=
  (List.takeWhile_prefix _).trans (List.take_prefix _ _)

/-- It ends before the first zero. -/
theorem zero_not_mem_scanned (pg : Nat) (file : List UInt8) : 0 ∉ scanned pg file := by
  intro hmem
  simpa using List.mem_takeWhile_imp hmem

/-- It ends with the mapping, at the latest. -/
theorem scanned_length_le (pg : Nat) (file : List UInt8) :
    (scanned pg file).length ≤ roundUp pg mmapLen := by
  refine (List.takeWhile_prefix _).length_le.trans ?_
  rw [List.length_take]
  exact Nat.min_le_left _ _

/-- It can be read where the file is mapped. -/
theorem reads_scanned {pg : Nat} (hpg : 0 < pg) (file : List UInt8) :
    Reads (mmapFile pg file) 0 (scanned pg file) := by
  have hprefix := scanned_leading pg file
  have hle := hprefix.length_le
  have hpages := le_roundUp hpg file.length
  have hmapped := scanned_length_le pg file
  refine ⟨Int.le_refl 0, ?_, ?_⟩
  · simp only [mmapFile]
    omega
  · rcases hprefix with ⟨rest, hrest⟩
    rw [Mem.ptr_zero]
    exact (bytes_split (by omega) ((bytes_ofBytes file).trans hrest.symm)).1

/-- The byte behind what the loop walks over is a zero byte, or cannot be read. -/
theorem read_behind {pg : Nat} (hpg : 0 < pg) (file : List UInt8) :
    (mmapFile pg file).read (scanned pg file).length =
      if EndsInside pg file then some 0 else none := by
  have hpages := lt_roundUp_iff hpg file.length
  by_cases hmem : 0 ∈ file.take (roundUp pg mmapLen)
  · -- a zero byte of the file
    obtain ⟨l, r, hmapped, hl⟩ := List.eq_append_cons_of_mem hmem
    have hscanned : scanned pg file = l := by
      unfold scanned
      rw [hmapped, List.takeWhile_append_of_pos]
      · rw [List.takeWhile_cons_of_neg (by simp), List.append_nil]
      · intro c hc
        exact decide_eq_true fun hzero => hl (hzero ▸ hc)
    have hlength := congrArg List.length hmapped
    rw [List.length_take, List.length_append, List.length_cons] at hlength
    have hget : file[l.length]? = some 0 := by
      have hat := congrArg (·[l.length]?) hmapped
      simp only [List.getElem?_append_right (Nat.le_refl _), Nat.sub_self] at hat
      rw [List.getElem?_take_of_lt (by omega)] at hat
      exact hat
    have hfile := le_roundUp hpg file.length
    have hends : EndsInside pg file := Or.inl hmem
    rw [if_pos hends, hscanned]
    have hbyte : ofBytes file l.length = 0 := by
      unfold ofBytes
      rw [Int.toNat_natCast, List.getD_eq_getElem?_getD, hget]
      rfl
    unfold Mapping.read mmapFile
    rw [if_pos (by simp only; omega)]
    exact congrArg some hbyte
  · have hscanned : scanned pg file = file.take (roundUp pg mmapLen) := by
      unfold scanned
      rw [List.takeWhile_eq_self_iff]
      intro c hc
      exact decide_eq_true fun hzero => hmem (hzero ▸ hc)
    have hlength := congrArg List.length hscanned
    rw [List.length_take] at hlength
    by_cases hlast : file.length % pg ≠ 0 ∧ file.length < roundUp pg mmapLen
    · -- the zeros behind the file
      have hinside := hpages.mpr hlast.1
      have hend : (scanned pg file).length = file.length := by omega
      have hends : EndsInside pg file := Or.inr hlast
      rw [if_pos hends, hend]
      have hbyte : ofBytes file file.length = 0 := by
        unfold ofBytes
        rw [Int.toNat_natCast, List.getD_eq_getElem?_getD, List.getElem?_eq_none (Nat.le_refl _)]
        rfl
      unfold Mapping.read mmapFile
      rw [if_pos (by simp only; omega)]
      exact congrArg some hbyte
    · have hends : ¬ EndsInside pg file := not_or.mpr ⟨hmem, hlast⟩
      rw [if_neg hends]
      unfold Mapping.read mmapFile
      rw [if_neg]
      simp only
      have hfull : file.length % pg ≠ 0 → roundUp pg mmapLen ≤ file.length := by
        intro hne
        by_contra hlt
        exact hlast ⟨hne, by omega⟩
      by_cases hzero : file.length % pg = 0
      · have hend : ¬ file.length < roundUp pg file.length := fun h => hpages.mp h hzero
        omega
      · have hle := hfull hzero
        omega

/-- **The loop over a mapped file** ends well exactly when there is a zero byte to be read
and every line before it has room; it has then handed on the lines that are kept. -/
theorem mapped_done_iff {pg : Nat} (hpg : 0 < pg) (file : List UInt8) (data d : σ) :
    Scans (mmapFile pg file) onLine (scanInit data) (.done d) ↔
      EndsInside pg file ∧ LinesFit (scanned pg file) ∧
        d = feed onLine 0 (scanned pg file) data := by
  have hz := zero_not_mem_scanned pg file
  have hreads := reads_scanned hpg file
  have hbehind := read_behind hpg file
  by_cases hend : EndsInside pg file
  · rw [if_pos hend] at hbehind
    rw [scans_done_iff hz hreads hbehind]
    exact ⟨fun h => ⟨hend, h⟩, fun h => h.2⟩
  · rw [if_neg hend] at hbehind
    exact ⟨fun h => absurd h (not_scans_done hz hreads hbehind d), fun h => absurd h.1 hend⟩

/-- Whatever the lines are used for. -/
theorem scansSafely_iff {pg : Nat} (hpg : 0 < pg) (file : List UInt8) (data : σ) :
    ScansSafely (mmapFile pg file) onLine data ↔
      EndsInside pg file ∧ LinesFit (scanned pg file) := by
  unfold ScansSafely
  simp only [mapped_done_iff hpg]
  constructor
  · rintro ⟨_, hends, hfit, _⟩
    exact ⟨hends, hfit⟩
  · rintro ⟨hends, hfit⟩
    exact ⟨_, hends, hfit, rfl⟩

end SServer.Conf
