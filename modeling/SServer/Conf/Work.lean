import SServer.Conf.Simple
import SServer.Lib.CStr

/-!
# SServer.Conf.Work — `work.conf`

`load_work_data` fills the array `works`, one entry a line, and enlarges it by `realloc`
when it is full. Three things about an entry are not what its line says: `idx` is the
position of the newline in the file, a `port` has sixteen bits, and the line that finds the
array full is used for enlarging it only, by a number of bytes rather than of entries.

The result: apart from `idx` the entries are those of the lines exactly when there are at
most a hundred lines with ports of sixteen bits and ids that are not negative; the first
`idx` is never zero. The last section tells when the loops of both loaders are safe.

* `scanWork_worker`: a worker's line is read as it is meant.
* `workLines_room`, `workLines_over`: up to a hundred lines fill the entries; more are not all
  used.
* `not_indexed`: no entry has its place in `idx`.
* `work_conf_iff`: the result, in two equivalences: with `idx` and without.
* `scans_safely_iff`: when the loops of both loaders read only what can be read.
* `oneWorker_not_indexed`, `fullPage_not_safely`: a file with one worker, and one that fills its
  page.

A call of `realloc` succeeds and keeps the entries; `outside` says when a store leaves the
block. A text whose lines are not all workers' or comments, or have no room in the buffers, is
outside of the first result.
-/

namespace SServer.Conf

open SServer.Lib

/-! ## Numbers -/

/-- `isdigit`. -/
def isDigit (c : UInt8) : Bool := decide (48 ≤ c ∧ c ≤ 57)

/-- The number that digits stand for. -/
def digitsVal (ds : List UInt8) : Int :=
  ds.foldl (fun (n : Int) (c : UInt8) => 10 * n + (c.toNat - 48)) 0

/-- A sign, and what follows it. -/
def signOf : List UInt8 → Bool × List UInt8
  | [] => (false, [])
  | c :: r => if c = 45 then (true, r) else if c = 43 then (false, r) else (false, c :: r)

/-- Digits with their sign. -/
def signed (neg : Bool) (ds : List UInt8) : Int := if neg then -digitsVal ds else digitsVal ds

/-- `%d`: skip space, and read a number. -/
def scanInt (l : List UInt8) : Option (Int × List UInt8) :=
  let s := signOf (l.dropWhile isSpace)
  let ds := s.2.takeWhile isDigit
  if ds = [] then none else some (signed s.1 ds, s.2.dropWhile isDigit)

/-- The number that a word is. -/
def decimal (w : List UInt8) : Option Int :=
  let s := signOf w
  if s.2 ≠ [] ∧ s.2.all isDigit = true then some (signed s.1 s.2) else none

/-! ## The loader -/

/-- `work_t`, the members that are configured. -/
structure WorkConf where
  id : UInt32
  idx : UInt16
  ip : Mem
  port : UInt16

/-- `sizeof(work_t)`, packed: `id`, `idx`, `ip`, `port`, `proto_type`, two queues of a
pointer, three ints and a byte, and two times. -/
def sizeofWork : Int := 4 + 2 + 32 + 2 + 1 + 2 * (8 + 4 + 2 * 4 + 1) + 4 + 4

/-- `nr_work` of `load_work_data`. -/
def workStep : Int := 100

/-- The locals of `load_work_data` that outlive a line, and `workmgr`. `alloc` is the size
of the block behind `works`, and `outside` tells of a write behind its end. -/
structure WorkData where
  id : Int32
  ip : Mem
  port : Int32
  works : Int → WorkConf
  alloc : Int
  nrWork : Int
  nrUsed : Int
  outside : Bool

/-- Before the loop: `ip` and the entries hold anything. -/
def workInit (ip : Mem) (works : Int → WorkConf) : WorkData :=
  { id := 0
    ip := ip
    port := 0
    works := works
    alloc := sizeofWork * workStep
    nrWork := workStep
    nrUsed := 0
    outside := false }

/-- `sscanf(line, "%d %s %d", &id, ip, &port)`. -/
def scanWork (line : List UInt8) (d : WorkData) : WorkData :=
  match scanInt line with
  | none => d
  | some (id, rest) =>
    let d := { d with id := Int32.ofInt id }
    match nextWord isSpace rest with
    | none => d
    | some (ip, rest) =>
      let d := { d with ip := strcpy d.ip 0 ip }
      match scanInt rest with
      | none => d
      | some (port, _) => { d with port := Int32.ofInt port }

/-- The entry for the locals, over what was there. -/
def WorkData.entry (d : WorkData) (i : Int) : WorkConf :=
  { id := UInt32.ofInt d.id.toInt
    idx := UInt16.ofInt i
    ip := memcpy (d.works d.nrUsed).ip 0 d.ip 32
    port := UInt16.ofInt d.port.toInt }

/-- What `load_work_data` does with a line. -/
def workLine : OnLine WorkData := fun i line d =>
  let d := scanWork line d
  if d.nrWork ≤ d.nrUsed then
    { d with
      alloc := sizeofWork * d.nrWork + workStep
      nrWork := d.nrWork + workStep }
  else
    { d with
      works := Function.update d.works d.nrUsed (d.entry i)
      outside := d.outside || decide (d.alloc < sizeofWork * (d.nrUsed + 1))
      nrUsed := d.nrUsed + 1 }

/-- `load_work_data` ends with `d`. -/
def LoadsWork (m : Mapping) (ip : Mem) (works : Int → WorkConf) (d : WorkData) : Prop :=
  Scans m workLine (scanInit (workInit ip works)) (.done d)

/-! ## The reference -/

/-- What a line says of a worker. -/
structure Worker where
  id : Int
  ip : List UInt8
  port : Int
deriving DecidableEq

/-- A line of three words, the first and the last a number. -/
def worker (l : List UInt8) : Option Worker :=
  match words isSpace l with
  | [a, ip, b] =>
    match decimal a, decimal b with
    | some id, some port => some { id := id, ip := ip, port := port }
    | _, _ => none
  | _ => none

/-- A number that an int can hold. -/
def IsInt (n : Int) : Prop := -2 ^ 31 ≤ n ∧ n < 2 ^ 31

/-- A line of the file is short, and empty, with a `#`, or that of a worker whose address
has room in `ip`. -/
def WorkLineOk (l : List UInt8) : Prop :=
  (l.length : Int) < lineSize ∧
    (Kept l → ∃ w, worker l = some w ∧ IsInt w.id ∧ IsInt w.port ∧ w.ip.length < 32)

/-- The text of a `work.conf`: such lines, each with its newline. -/
def WorkText (text : List UInt8) : Prop :=
  unended newline text = [] ∧ ∀ l ∈ ended newline text, WorkLineOk l

/-- The workers of a text. -/
def workers (text : List UInt8) : List Worker :=
  ((text.splitOn newline).filter fun l => Kept l).filterMap worker

/-- An entry holds what its line says. -/
def WorkConf.Of (e : WorkConf) (w : Worker) : Prop :=
  (e.id.toNat : Int) = w.id ∧ Holds e.ip w.ip ∧ (e.port.toNat : Int) = w.port

/-- The entries are those of the workers, and all writes were inside the array. -/
def Holding (ws : List Worker) (d : WorkData) : Prop :=
  d.nrUsed = ws.length ∧ (∀ (k : Nat) w, ws[k]? = some w → (d.works k).Of w) ∧ d.outside = false

/-- Each entry has its place in `idx`. -/
def Indexed (ws : List Worker) (d : WorkData) : Prop :=
  ∀ k : Nat, k < ws.length → (d.works k).idx.toNat = k

/-- A worker whose id and port have room in the entry. -/
def Worker.Fits (w : Worker) : Prop := 0 ≤ w.id ∧ 0 ≤ w.port ∧ w.port < 2 ^ 16

instance (w : Worker) : Decidable w.Fits := inferInstanceAs (Decidable (_ ∧ _ ∧ _))

/-! ## Reading a line -/

/-- No digit is a space. -/
theorem digit_not_space {c : UInt8} (h : isSpace c = true) : isDigit c = false := by
  unfold isSpace at h
  unfold isDigit
  rw [decide_eq_true_eq] at h
  rw [decide_eq_false_iff_not]
  rintro ⟨hlo, hhi⟩
  rcases h with rfl | ⟨_, hle⟩
  · cases (show ¬ (48 : UInt8) ≤ 32 by decide) hlo
  · exact absurd (UInt8.le_trans hlo hle) (by decide)

/-- The sign stands in front, whatever is behind. -/
theorem signOf_append {w : List UInt8} (hw : w ≠ []) (r : List UInt8) :
    signOf (w ++ r) = ((signOf w).1, (signOf w).2 ++ r) := by
  cases w with
  | nil => exact absurd rfl hw
  | cons c w =>
    by_cases hminus : c = 45
    · simp [signOf, hminus]
    · by_cases hplus : c = 43
      · simp [signOf, hplus]
      · simp [signOf, hminus, hplus]

/-- What a word is followed by begins with a space, if with anything. -/
theorem nextWord_rest {l w r : List UInt8} (h : nextWord isSpace l = some (w, r)) :
    l.dropWhile isSpace = w ++ r ∧ w ≠ [] ∧ ∀ c ∈ r.head?, isSpace c = true := by
  unfold nextWord at h
  cases hdrop : l.dropWhile isSpace with
  | nil =>
    rw [hdrop] at h
    cases h
  | cons c t =>
    rw [hdrop] at h
    cases h
    have hc : isSpace c = false := by
      have hhead := List.head?_dropWhile_not isSpace l
      rw [hdrop] at hhead
      simpa using hhead
    refine ⟨List.takeWhile_append_dropWhile.symm, ?_, fun x hx => ?_⟩
    · rw [List.takeWhile_cons_of_pos (by simp [hc])]
      exact List.cons_ne_nil _ _
    · have hhead := List.head?_dropWhile_not (fun x => !isSpace x) (c :: t)
      rw [hx] at hhead
      simpa using hhead

/-- A word that is a number is read as that number. -/
theorem scanInt_word {l w r : List UInt8} {n : Int} (h : nextWord isSpace l = some (w, r))
    (hn : decimal w = some n) : scanInt l = some (n, r) := by
  obtain ⟨hdrop, hw, hr⟩ := nextWord_rest h
  unfold decimal at hn
  simp only at hn
  split at hn
  swap
  · cases hn
  next hdigits =>
  cases hn
  have hall : ∀ c ∈ (signOf w).2, isDigit c = true := List.all_eq_true.mp hdigits.2
  have htake : ((signOf w).2 ++ r).takeWhile isDigit = (signOf w).2 := by
    rw [List.takeWhile_append_of_pos hall]
    cases r with
    | nil => exact List.append_nil _
    | cons c r =>
      rw [List.takeWhile_cons_of_neg, List.append_nil]
      rw [digit_not_space (hr c rfl)]
      exact Bool.false_ne_true
  have hrest : ((signOf w).2 ++ r).dropWhile isDigit = r := by
    rw [List.dropWhile_append_of_pos hall]
    cases r with
    | nil => rfl
    | cons c r =>
      rw [List.dropWhile_cons_of_neg]
      rw [digit_not_space (hr c rfl)]
      exact Bool.false_ne_true
  unfold scanInt
  simp only [hdrop, signOf_append hw, htake, hrest]
  rw [if_neg hdigits.1]

/-- **A worker's line** is read as it is meant. -/
theorem scanWork_worker {l : List UInt8} {w : Worker} (h : worker l = some w) (d : WorkData) :
    scanWork l d = { d with
      id := Int32.ofInt w.id
      ip := strcpy d.ip 0 w.ip
      port := Int32.ofInt w.port } := by
  unfold worker at h
  split at h
  swap
  · cases h
  next a ip b hwords =>
  obtain ⟨r₁, hfirst, hrest₁⟩ := words_eq_cons hwords
  obtain ⟨r₂, hsecond, hrest₂⟩ := words_eq_cons hrest₁
  obtain ⟨r₃, hthird, _⟩ := words_eq_cons hrest₂
  split at h
  swap
  · cases h
  next id port hid hport =>
  cases h
  unfold scanWork
  simp only [scanInt_word hfirst hid, hsecond, scanInt_word hthird hport]

/-! ## The array -/

/-- What a worker's line at `i` leaves in its entry. -/
def WorkConf.From (e : WorkConf) (i : Int) (w : Worker) : Prop :=
  e.id = UInt32.ofInt (Int32.ofInt w.id).toInt ∧ e.idx = UInt16.ofInt i ∧ Holds e.ip w.ip ∧
    e.port = UInt16.ofInt (Int32.ofInt w.port).toInt

/-- A copied address is there if it has room. -/
theorem holds_copied (old ip : Mem) {s : List UInt8} (hs : s.length < 32) :
    Holds (memcpy old 0 (strcpy ip 0 s) 32) s := by
  have hstored := holds_strcpy ip 0 s
  rw [Mem.ptr_zero] at hstored
  refine hstored.congr fun i h0 hi => ?_
  rw [memcpy_in (by omega), Int.sub_zero]

/-- The first hundred entries: `n` are used, all inside the block. -/
structure InFirst (n : Nat) (d : WorkData) : Prop where
  used : d.nrUsed = n
  room : d.nrWork = workStep
  block : d.alloc = sizeofWork * workStep
  inside : d.outside = false

/-- No entry is used at first. -/
theorem workInit_inFirst (ip : Mem) (works : Int → WorkConf) : InFirst 0 (workInit ip works) :=
  ⟨rfl, rfl, rfl, rfl⟩

/-- A worker's line while there is room. -/
theorem workLine_room {l : List UInt8} {w : Worker} {n : Nat} {d : WorkData} (i : Int)
    (hw : worker l = some w) (hip : w.ip.length < 32) (h : InFirst n d)
    (hn : (n : Int) < workStep) :
    InFirst (n + 1) (workLine i l d) ∧ ((workLine i l d).works n).From i w ∧
      ∀ k : Int, k ≠ n → (workLine i l d).works k = d.works k := by
  unfold workLine
  rw [scanWork_worker hw]
  simp only [h.used, h.room, h.block, h.inside]
  rw [if_neg (by omega)]
  refine ⟨⟨?_, rfl, rfl, ?_⟩, ?_, fun k hk => ?_⟩
  · simp
  · have hfits : ¬ sizeofWork * workStep < sizeofWork * ((n : Int) + 1) := by
      unfold sizeofWork
      omega
    simp only [hfits, decide_false, Bool.or_false]
  · simp only [Function.update_self]
    exact ⟨rfl, rfl, holds_copied _ _ hip, rfl⟩
  · simp only
    rw [Function.update_of_ne hk]

/-- `sscanf` changes its three arguments only. -/
theorem scanWork_frame (l : List UInt8) (d : WorkData) :
    ∃ id ip port, scanWork l d = { d with id := id, ip := ip, port := port } := by
  unfold scanWork
  cases scanInt l with
  | none => exact ⟨_, _, _, rfl⟩
  | some p =>
    simp only
    cases nextWord isSpace p.2 with
    | none => exact ⟨_, _, _, rfl⟩
    | some q =>
      simp only
      cases scanInt q.2 with
      | none => exact ⟨_, _, _, rfl⟩
      | some r => exact ⟨_, _, _, rfl⟩

/-- A line uses at most one entry, the next one. -/
theorem workLine_used (i : Int) (l : List UInt8) (d : WorkData) :
    d.nrUsed ≤ (workLine i l d).nrUsed ∧ (workLine i l d).nrUsed ≤ d.nrUsed + 1 ∧
      ∀ k : Int, k < d.nrUsed → (workLine i l d).works k = d.works k := by
  obtain ⟨id, ip, port, hscan⟩ := scanWork_frame l d
  unfold workLine
  rw [hscan]
  simp only
  split
  · exact ⟨Int.le_refl _, by simp only; omega, fun _ _ => rfl⟩
  · refine ⟨by simp only; omega, Int.le_refl _, fun k hk => ?_⟩
    simp only
    rw [Function.update_of_ne (by omega)]

/-- The line that finds the array full uses none. -/
theorem workLine_full {d : WorkData} (h : d.nrWork ≤ d.nrUsed) (i : Int) (l : List UInt8) :
    (workLine i l d).nrUsed = d.nrUsed := by
  obtain ⟨id, ip, port, hscan⟩ := scanWork_frame l d
  unfold workLine
  rw [hscan]
  simp only
  rw [if_pos h]

/-- What lines with their places make of the array. -/
def workLines (xs : List (Int × List UInt8)) (d : WorkData) : WorkData :=
  xs.foldl (fun d x => workLine x.1 x.2 d) d

/-- The condition on them: each is a worker's. -/
def AllWorkers (xs : List (Int × List UInt8)) : Prop :=
  ∀ x ∈ xs, ∃ w, worker x.2 = some w ∧ IsInt w.id ∧ IsInt w.port ∧ w.ip.length < 32

/-- Entries that are used stay, and each line uses at most one more. -/
theorem workLines_used : ∀ (xs : List (Int × List UInt8)) (d : WorkData),
    (workLines xs d).nrUsed ≤ d.nrUsed + xs.length ∧
      ∀ k : Int, k < d.nrUsed → (workLines xs d).works k = d.works k := by
  intro xs
  induction xs with
  | nil =>
    intro d
    refine ⟨?_, fun _ _ => rfl⟩
    simp [workLines]
  | cons x xs ih =>
    intro d
    obtain ⟨hle, hmore, hkeep⟩ := workLine_used x.1 x.2 d
    obtain ⟨hused, hstay⟩ := ih (workLine x.1 x.2 d)
    unfold workLines at hused hstay ⊢
    rw [List.foldl_cons, List.length_cons]
    refine ⟨by omega, fun k hk => ?_⟩
    rw [hstay k (by omega), hkeep k hk]

/-- **Up to a hundred lines** fill the entries one after another. -/
theorem workLines_room : ∀ {xs : List (Int × List UInt8)} {n : Nat} {d : WorkData},
    AllWorkers xs → InFirst n d → ((n + xs.length : Nat) : Int) ≤ workStep →
      InFirst (n + xs.length) (workLines xs d) ∧
        ∀ (k : Nat) x w, xs[k]? = some x → worker x.2 = some w →
          ((workLines xs d).works ((n + k : Nat) : Int)).From x.1 w := by
  intro xs
  induction xs with
  | nil =>
    intro n d _ h _
    refine ⟨h, fun k x w hx => ?_⟩
    cases hx
  | cons x xs ih =>
    intro n d hall h hn
    rw [List.length_cons] at hn ⊢
    obtain ⟨w, hw, _, _, hip⟩ := hall x List.mem_cons_self
    obtain ⟨hnext, hentry, _⟩ := workLine_room x.1 hw hip h (by omega)
    have hsum : n + (xs.length + 1) = n + 1 + xs.length := by omega
    rw [hsum] at hn ⊢
    obtain ⟨hfill, hrest⟩ := ih (fun y hy => hall y (List.mem_cons_of_mem x hy)) hnext hn
    refine ⟨hfill, fun k y v hy hv => ?_⟩
    cases k with
    | zero =>
      cases hy
      rw [hw] at hv
      cases hv
      have hstay := (workLines_used xs (workLine x.1 x.2 d)).2 n (by rw [hnext.used]; omega)
      rw [Nat.add_zero]
      unfold workLines at hstay ⊢
      rw [List.foldl_cons, hstay]
      exact hentry
    | succ k =>
      have hplace : n + (k + 1) = n + 1 + k := by omega
      rw [hplace]
      exact hrest k y v hy hv

/-- **More than a hundred lines** are not all used. -/
theorem workLines_over {xs : List (Int × List UInt8)} {d : WorkData} (hall : AllWorkers xs)
    (h : InFirst 0 d) (hmore : workStep < xs.length) : (workLines xs d).nrUsed < xs.length := by
  have hstep : workStep = ((100 : Nat) : Int) := rfl
  have hlen : 100 < xs.length := by omega
  have hsplit : xs = xs.take 100 ++ xs[100] :: xs.drop 101 := by
    rw [← List.drop_eq_getElem_cons hlen, List.take_append_drop]
  have htake : (xs.take 100).length = 100 := by
    rw [List.length_take]
    omega
  -- a hundred lines fill the array, and the next one is used for enlarging it
  have hfull := (workLines_room (fun x hx => hall x (List.mem_of_mem_take hx)) h
    (by rw [htake]; decide)).1
  rw [htake] at hfull
  have hsame := workLine_full (by rw [hfull.used, hfull.room]; decide) xs[100].1 xs[100].2
  have hrest := (workLines_used (xs.drop 101)
    (workLine xs[100].1 xs[100].2 (workLines (xs.take 100) d))).1
  rw [hsame, hfull.used, List.length_drop] at hrest
  have hall : workLines xs d = workLines (xs.drop 101)
      (workLine xs[100].1 xs[100].2 (workLines (xs.take 100) d)) := by
    unfold workLines
    conv_lhs => rw [hsplit]
    rw [List.foldl_append, List.foldl_cons]
  rw [hall]
  omega

/-! ## The lines and their workers -/

/-- A line that is handed on is ended, and to be kept. -/
theorem mem_keptLines {p : Int} {t : List UInt8} {x : Int × List UInt8} (hx : x ∈ keptLines p t) :
    x.2 ∈ ended newline t ∧ Kept x.2 := by
  have hmem : x.2 ∈ (keptLines p t).map (·.2) := List.mem_map_of_mem hx
  rw [keptLines_lines, List.mem_filter, decide_eq_true_eq] at hmem
  exact hmem

/-- The newline of a line that is kept is not the first byte. -/
theorem keptLines_place {t : List UInt8} : ∀ {p : Int} {x : Int × List UInt8},
    x ∈ keptLines p t → p < x.1 ∧ x.1 < p + t.length := by
  induction t using lines_induction (d := newline) with
  | last l hl =>
    intro p x hx
    unfold keptLines at hx
    rw [ended_of_not_mem hl] at hx
    cases hx
  | line l t hl ih =>
    intro p x hx
    rw [keptLines_line hl, List.mem_append] at hx
    rw [List.length_append, List.length_cons]
    rcases hx with hfirst | hrest
    · by_cases hkept : Kept l
      · rw [if_pos hkept, List.mem_singleton] at hfirst
        have hpos := List.length_pos_iff.mpr hkept.1
        rw [hfirst]
        refine ⟨?_, ?_⟩
        · simp only
          omega
        · simp only
          omega
      · rw [if_neg hkept] at hfirst
        cases hfirst
    · have hplace := ih hrest
      omega

/-- What is walked over are lines of the text. -/
theorem ended_scanned (pg : Nat) (text : List UInt8) :
    ended newline (scanned pg text) <+: ended newline text := by
  obtain ⟨rest, hrest⟩ := scanned_leading pg text
  conv_rhs => rw [← hrest]
  exact ended_append_leading newline (scanned pg text) rest

/-- The lines of such a text that are kept are those of workers. -/
theorem WorkText.allWorkers {text t : List UInt8} (h : WorkText text)
    (ht : ended newline t <+: ended newline text) : AllWorkers (keptLines 0 t) := by
  intro x hx
  obtain ⟨hmem, hkept⟩ := mem_keptLines hx
  exact (h.2 x.2 (ht.subset hmem)).2 hkept

/-- The lines of such a text have room. -/
theorem WorkText.linesFit {text t : List UInt8} (h : WorkText text)
    (ht : ended newline t <+: ended newline text) : LinesFit t :=
  fun l hl _ => (h.2 l (ht.subset hl)).1

/-- Behind the last newline there is no worker. -/
theorem workers_eq {text : List UInt8} (h : unended newline text = []) :
    workers text = ((keptLines 0 text).map (·.2)).filterMap worker := by
  unfold workers
  rw [keptLines_lines, splitOn_eq_ended, h, List.filter_append]
  have hempty : ¬ Kept [] := fun hkept => hkept.1 rfl
  rw [List.filter_singleton, decide_eq_false hempty]
  simp

/-- One worker for each line. -/
theorem workers_map {xs : List (Int × List UInt8)} (hall : AllWorkers xs) :
    ((xs.map (·.2)).filterMap worker).map some = xs.map fun x => worker x.2 := by
  induction xs with
  | nil => rfl
  | cons x xs ih =>
    obtain ⟨w, hw, _⟩ := hall x List.mem_cons_self
    rw [List.map_cons, List.filterMap_cons, List.map_cons, hw]
    simp only
    rw [List.map_cons, ih fun y hy => hall y (List.mem_cons_of_mem x hy)]

/-- Each line handed on is one worker. -/
theorem workers_length {text : List UInt8} (h : WorkText text) :
    (workers text).length = (keptLines 0 text).length := by
  have hmap := congrArg List.length (workers_map (h.allWorkers List.prefix_rfl))
  rwa [List.length_map, List.length_map, ← workers_eq h.1] at hmap

/-- In the order of the lines. -/
theorem workers_getElem? {text : List UInt8} (h : WorkText text) {k : Nat} {w : Worker}
    (hw : (workers text)[k]? = some w) :
    ∃ x ∈ keptLines 0 text, (keptLines 0 text)[k]? = some x ∧ worker x.2 = some w := by
  have hmap := congrArg (·[k]?) (workers_map (h.allWorkers List.prefix_rfl))
  rw [← workers_eq h.1] at hmap
  simp only [List.getElem?_map, hw, Option.map_some] at hmap
  obtain ⟨x, hx, hsome⟩ := Option.map_eq_some_iff.mp hmap.symm
  exact ⟨x, List.mem_of_getElem? hx, hx, hsome⟩

/-- An entry holds what its line says exactly when id and port have room in it. -/
theorem WorkConf.From.of_iff {e : WorkConf} {i : Int} {w : Worker} (h : e.From i w)
    (hid : IsInt w.id) (hport : IsInt w.port) : e.Of w ↔ w.Fits := by
  rcases h with ⟨heid, _, hip, heport⟩
  rcases hid with ⟨hidlo, hidhi⟩
  rcases hport with ⟨hplo, hphi⟩
  have hidval : (e.id.toNat : Int) = w.id % 2 ^ 32 := by
    rw [heid, Int32.toInt_ofInt_of_le hidlo hidhi, UInt32.ofInt, UInt32.toNat_ofNat']
    omega
  have hportval : (e.port.toNat : Int) = w.port % 2 ^ 16 := by
    rw [heport, Int32.toInt_ofInt_of_le hplo hphi, UInt16.ofInt, UInt16.toNat_ofNat']
    omega
  unfold WorkConf.Of Worker.Fits
  rw [hidval, hportval]
  constructor
  · rintro ⟨hi, _, hp⟩
    omega
  · rintro ⟨hi, hp0, hp⟩
    refine ⟨?_, hip, ?_⟩
    · omega
    · omega

/-! ## `work.conf` -/

/-- The loader, over the lines it walks over. -/
theorem loadsWork_iff {pg : Nat} {text : List UInt8} (hpg : 0 < pg) (h : WorkText text) (ip : Mem)
    (works : Int → WorkConf) (d : WorkData) :
    LoadsWork (mmapFile pg text) ip works d ↔
      EndsInside pg text ∧ d = workLines (keptLines 0 (scanned pg text)) (workInit ip works) := by
  unfold LoadsWork
  rw [mapped_done_iff hpg]
  constructor
  · rintro ⟨hends, _, hd⟩
    exact ⟨hends, hd⟩
  · rintro ⟨hends, hd⟩
    exact ⟨hends, h.linesFit (ended_scanned pg text), hd⟩

/-- A line that is walked over is a worker's, so that there is none without workers. -/
theorem keptLines_scanned_nil {text : List UInt8} (h : WorkText text) (pg : Nat)
    (hnone : workers text = []) : keptLines 0 (scanned pg text) = [] := by
  have hlen := workers_length h
  rw [hnone] at hlen
  have hnil := List.eq_nil_of_length_eq_zero hlen.symm
  rw [List.eq_nil_iff_forall_not_mem]
  intro x hx
  obtain ⟨hmem, hkept⟩ := mem_keptLines hx
  have hline : x.2 ∈ (ended newline text).filter fun l => Kept l :=
    List.mem_filter.mpr ⟨(ended_scanned pg text).subset hmem, decide_eq_true hkept⟩
  rw [← keptLines_lines 0, hnil] at hline
  cases hline

/-- The first entry has the place of its newline in `idx`, whatever follows. -/
theorem workLines_first {x : Int × List UInt8} {xs : List (Int × List UInt8)} {d : WorkData}
    (hall : AllWorkers (x :: xs)) (h : InFirst 0 d) :
    ((workLines (x :: xs) d).works 0).idx = UInt16.ofInt x.1 := by
  obtain ⟨w, hw, _, _, hip⟩ := hall x List.mem_cons_self
  obtain ⟨hnext, hentry, _⟩ := workLine_room x.1 hw hip h (by decide)
  have hstay := (workLines_used xs (workLine x.1 x.2 d)).2 0 (by rw [hnext.used]; decide)
  unfold workLines at hstay ⊢
  rw [List.foldl_cons, hstay]
  exact hentry.2.1

/-- **No entry has its place.** In a file of up to 64 KiB the first `idx` is not zero. -/
theorem not_indexed {pg : Nat} {text : List UInt8} {ip : Mem} {works : Int → WorkConf}
    (h : WorkText text) (hlen : text.length ≤ 2 ^ 16) (hsome : workers text ≠ [])
    (hholding : Holding (workers text)
      (workLines (keptLines 0 (scanned pg text)) (workInit ip works))) :
    ¬ Indexed (workers text)
      (workLines (keptLines 0 (scanned pg text)) (workInit ip works)) := by
  intro hindexed
  have hpos := List.length_pos_iff.mpr hsome
  have hfirst := hindexed 0 hpos
  have hall := h.allWorkers (ended_scanned pg text)
  have hshort := (scanned_leading pg text).length_le
  cases hlines : keptLines 0 (scanned pg text) with
  | nil =>
    have hused := hholding.1
    rw [hlines] at hused
    have hzero : ((0 : Nat) : Int) = (workers text).length := hused
    omega
  | cons x xs =>
    -- its newline is neither the first byte nor so far that the sixteen bits are zero
    have hplace := @keptLines_place (scanned pg text) 0 x (by rw [hlines]; exact List.mem_cons_self)
    rw [hlines] at hfirst hall
    have hidx := workLines_first hall (workInit_inFirst ip works)
    rw [Int.natCast_zero, hidx, UInt16.ofInt, UInt16.toNat_ofNat'] at hfirst
    omega

/-- **The entries without `idx`.** They are those of the workers exactly when there is room
for all of them, and for each in its entry. -/
theorem holding_iff {text : List UInt8} (h : WorkText text) (ip : Mem) (works : Int → WorkConf) :
    Holding (workers text) (workLines (keptLines 0 text) (workInit ip works)) ↔
      ((workers text).length : Int) ≤ workStep ∧ ∀ w ∈ workers text, w.Fits := by
  have hall := h.allWorkers List.prefix_rfl
  have hlen := workers_length h
  have hfill := @workLines_room (keptLines 0 text) 0 _ hall (workInit_inFirst ip works)
  rw [Nat.zero_add] at hfill
  constructor
  · intro hholding
    have hroom : ((workers text).length : Int) ≤ workStep := by
      by_contra hmore
      have hless := workLines_over hall (workInit_inFirst ip works) (by omega)
      have hused := hholding.1
      omega
    refine ⟨hroom, fun w hw => ?_⟩
    obtain ⟨k, hk⟩ := List.getElem?_of_mem hw
    obtain ⟨x, hx, hget, hworker⟩ := workers_getElem? h hk
    obtain ⟨v, hv, hid, hport, _⟩ := hall x hx
    rw [hworker] at hv
    cases hv
    have hfrom := (hfill (by omega)).2 k x w hget hworker
    rw [Nat.zero_add] at hfrom
    exact (hfrom.of_iff hid hport).mp (hholding.2.1 k w hk)
  · rintro ⟨hroom, hfits⟩
    obtain ⟨hfirst, hfrom⟩ := hfill (by omega)
    refine ⟨?_, fun k w hk => ?_, hfirst.inside⟩
    · rw [hfirst.used, hlen]
    · obtain ⟨x, hx, hget, hworker⟩ := workers_getElem? h hk
      obtain ⟨v, hv, hid, hport, _⟩ := hall x hx
      rw [hworker] at hv
      cases hv
      have hentry := hfrom k x w hget hworker
      rw [Nat.zero_add] at hentry
      exact (hentry.of_iff hid hport).mpr (hfits w (List.mem_of_getElem? hk))

/-- **`work.conf`.** The array is as it should be exactly when the file has no worker. But
for `idx`, it is exactly when there are at most a hundred, each with an id that is not
negative and a port of sixteen bits. Either way the loop has to come to a zero byte. -/
theorem work_conf_iff {pg : Nat} {text : List UInt8} (hpg : 0 < pg) (htext : WorkText text)
    (hlen : text.length ≤ 2 ^ 16) (ip : Mem) (works : Int → WorkConf) :
    ((∃ d, LoadsWork (mmapFile pg text) ip works d ∧ Holding (workers text) d ∧
        Indexed (workers text) d) ↔ workers text = [] ∧ EndsInside pg text) ∧
      (0 ∉ text → ((∃ d, LoadsWork (mmapFile pg text) ip works d ∧ Holding (workers text) d) ↔
        ((workers text).length : Int) ≤ workStep ∧ (∀ w ∈ workers text, w.Fits) ∧
          EndsInside pg text)) := by
  simp only [loadsWork_iff hpg htext]
  refine ⟨⟨?_, ?_⟩, fun hz => ⟨?_, ?_⟩⟩
  · rintro ⟨d, ⟨hends, rfl⟩, hholding, hindexed⟩
    refine ⟨?_, hends⟩
    by_contra hsome
    exact not_indexed htext hlen hsome hholding hindexed
  · rintro ⟨hnone, hends⟩
    refine ⟨_, ⟨hends, rfl⟩, ?_⟩
    rw [hnone, keptLines_scanned_nil htext pg hnone]
    refine ⟨⟨rfl, fun k w hw => ?_, rfl⟩, fun k hk => ?_⟩
    · cases hw
    · exact absurd hk (Nat.not_lt_zero k)
  · rintro ⟨d, ⟨hends, rfl⟩, hholding⟩
    rw [scanned_of_endsInside hz hends, holding_iff htext] at hholding
    exact ⟨hholding.1, hholding.2, hends⟩
  · rintro ⟨hroom, hfits, hends⟩
    refine ⟨_, ⟨hends, rfl⟩, ?_⟩
    rw [scanned_of_endsInside hz hends, holding_iff htext]
    exact ⟨hroom, hfits⟩

/-- A file of a comment. -/
def comment : List UInt8 := [hash, 49, newline]

/-- The lines `#1`, `1 a 9001` and `2 b 9002`. -/
def twoWorkers : List UInt8 :=
  comment ++ [49, 32, 97, 32, 57, 48, 48, 49, newline, 50, 32, 98, 32, 57, 48, 48, 50, newline]

/-- For the comment the array has no worker. For the two workers below it the array holds
both, but for `idx`. -/
theorem work_conf_iff_twoWorkers :
    (workers comment = [] ∧ ∀ ip works, ∃ d, LoadsWork (mmapFile 4096 comment) ip works d ∧
      Holding (workers comment) d ∧ Indexed (workers comment) d) ∧
    workers twoWorkers = [⟨1, [97], 9001⟩, ⟨2, [98], 9002⟩] ∧ ∀ ip works,
      ∃ d, LoadsWork (mmapFile 4096 twoWorkers) ip works d ∧ Holding (workers twoWorkers) d := by
  have hcomment : WorkLineOk [hash, 49] := ⟨by decide, fun hkept => absurd hkept (by decide)⟩
  constructor
  · have htext : WorkText comment := by
      have hlines : ended newline comment = [[hash, 49]] := by decide
      refine ⟨by decide, ?_⟩
      rw [hlines, List.forall_mem_singleton]
      exact hcomment
    have hnone : workers comment = [] := by decide
    refine ⟨hnone, fun ip works => ?_⟩
    exact (work_conf_iff (by decide) htext (by decide) ip works).1.mpr ⟨hnone, by decide⟩
  · have htext : WorkText twoWorkers := by
      have hlines : ended newline twoWorkers = [[hash, 49], [49, 32, 97, 32, 57, 48, 48, 49],
          [50, 32, 98, 32, 57, 48, 48, 50]] := by
        decide
      refine ⟨by decide, ?_⟩
      rw [hlines, List.forall_mem_cons, List.forall_mem_cons, List.forall_mem_singleton]
      refine ⟨hcomment, ⟨by decide, fun _ => ⟨⟨1, [97], 9001⟩, by decide, ?_⟩⟩,
        by decide, fun _ => ⟨⟨2, [98], 9002⟩, by decide, ?_⟩⟩
      · exact ⟨by unfold IsInt; decide, by unfold IsInt; decide, by decide⟩
      · exact ⟨by unfold IsInt; decide, by unfold IsInt; decide, by decide⟩
    have htwo : workers twoWorkers = [⟨1, [97], 9001⟩, ⟨2, [98], 9002⟩] := by decide
    refine ⟨htwo, fun ip works => ?_⟩
    refine ((work_conf_iff (by decide) htext (by decide) ip works).2 (by decide)).mpr ?_
    refine ⟨by decide, ?_, by decide⟩
    rw [htwo]
    decide

/-- The line `1 a 5`, with its newline. -/
def oneWorker : List UInt8 := [49, 32, 97, 32, 53, newline]

/-- Its entry has five in `idx`. -/
theorem oneWorker_not_indexed : ¬ ∃ ip works d, LoadsWork (mmapFile 4096 oneWorker) ip works d ∧
    Holding (workers oneWorker) d ∧ Indexed (workers oneWorker) d := by
  rintro ⟨ip, works, d, hd, _, hindexed⟩
  obtain ⟨_, _, rfl⟩ := (mapped_done_iff (by decide) oneWorker _ d).mp hd
  have hfirst := hindexed 0 (by decide)
  have hlines : keptLines 0 (scanned 4096 oneWorker) = [(5, [49, 32, 97, 32, 53])] := by decide
  have hidx : ((feed workLine 0 (scanned 4096 oneWorker) (workInit ip works)).works 0).idx = 5 := by
    unfold feed
    rw [hlines]
    rfl
  rw [Int.natCast_zero, hidx] at hfirst
  cases hfirst

/-! ## Safety of the loops -/

/-- The loop of `load_simple_data` is safe. -/
def SimpleSafely (m : Mapping) (key value : List UInt8) : Prop :=
  ScansSafely m simpleLine (simpleInit key value)

/-- The loop of `load_work_data` is safe. -/
def WorkSafely (m : Mapping) (ip : Mem) (works : Int → WorkConf) : Prop :=
  ScansSafely m workLine (workInit ip works)

/-- **Both loops** read only what can be read, stop, and stay in `line[]`, exactly when
there is a zero byte to be read and every line handed on before it has room. -/
theorem scans_safely_iff {pg : Nat} (hpg : 0 < pg) (file key value : List UInt8) (ip : Mem)
    (works : Int → WorkConf) :
    (SimpleSafely (mmapFile pg file) key value ↔
        EndsInside pg file ∧ LinesFit (scanned pg file)) ∧
      (WorkSafely (mmapFile pg file) ip works ↔
        EndsInside pg file ∧ LinesFit (scanned pg file)) :=
  ⟨scansSafely_iff hpg file _, scansSafely_iff hpg file _⟩

/-- A file of one line is walked over safely. -/
theorem scans_safely_iff_oneWorker : EndsInside 4096 oneWorker ∧ ∀ key value ip works,
    SimpleSafely (mmapFile 4096 oneWorker) key value ∧
      WorkSafely (mmapFile 4096 oneWorker) ip works := by
  have hends : EndsInside 4096 oneWorker := by decide
  have hfit : LinesFit (scanned 4096 oneWorker) := by
    have hlines : ended newline (scanned 4096 oneWorker) = [[49, 32, 97, 32, 53]] := by decide
    intro l hl _
    rw [hlines, List.mem_singleton] at hl
    rw [hl]
    decide
  refine ⟨hends, fun key value ip works => ?_⟩
  obtain ⟨hsimple, hwork⟩ := scans_safely_iff (by decide : 0 < 4096) oneWorker key value ip works
  exact ⟨hsimple.mpr ⟨hends, hfit⟩, hwork.mpr ⟨hends, hfit⟩⟩

/-- A file that fills its page. -/
def fullPage : List UInt8 := List.replicate 4096 newline

/-- Both loops run out of it. -/
theorem fullPage_not_safely : ¬ ∃ key value ip works,
    SimpleSafely (mmapFile 4096 fullPage) key value ∨
      WorkSafely (mmapFile 4096 fullPage) ip works := by
  have hnone : ¬ EndsInside 4096 fullPage := by
    rintro (hzero | ⟨hlast, _⟩)
    · cases List.eq_of_mem_replicate (List.mem_of_mem_take hzero)
    · unfold fullPage at hlast
      rw [List.length_replicate] at hlast
      exact hlast rfl
  rintro ⟨key, value, ip, works, hsimple | hwork⟩
  · exact hnone ((scansSafely_iff (by decide) fullPage _).mp hsimple).1
  · exact hnone ((scansSafely_iff (by decide) fullPage _).mp hwork).1

end SServer.Conf
