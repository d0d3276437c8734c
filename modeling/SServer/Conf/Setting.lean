import Mathlib.Data.Nat.Digits.Defs
import SServer.Conf.Work
import SServer.Lib.Fields

/-!
# SServer.Conf.Setting — from `simple.conf` to `setting`

`init_setting` asks `conf_get_int` and `conf_get_str` for each key, and stores what it gets
in the fields of `setting`: numbers by assignment, three of the names by a `memcpy` of the
whole field, the other strings by `strcpy`. `conf_get_str` returns the empty string for a
key that is not there, never `NULL`, so `init_setting` does not fail.

Two round trips: a table that is printed with a key and a value on each line is what
`load_simple_data` makes of the text; and the settings that are printed so, behind any
other lines, are what `init_setting` leaves in memory.

* `showNat_spec`, `atoi_showInt`: a number in print, and that `atoi` reads it as far as an int
  goes.
* `printed_table_loads`: the first round trip, for any pairs of words.
* `readSetting_initSetting`: what `init_setting` leaves in memory.
* `setting_round_trip`: the second round trip, from the text to the fields of `setting`.

The functions that print are not in the source; they say which files are meant. No file is read
but the one text that is given.
-/

namespace SServer.Conf

open SServer.Lib

/-- The bytes of a name in the source. -/
def ascii (s : String) : List UInt8 := s.toList.map fun c => UInt8.ofNat c.toNat

/-! ## Numbers in print -/

/-- A digit. -/
def digit (d : Nat) : UInt8 := UInt8.ofNat (48 + d)

/-- A number in decimal. -/
def showNat (n : Nat) : List UInt8 :=
  if n = 0 then [digit 0] else ((Nat.digits 10 n).map digit).reverse

/-- With its sign. -/
def showInt (n : Int) : List UInt8 := if n < 0 then 45 :: showNat n.natAbs else showNat n.natAbs

/-- `atoi`, which is `strtol` cut to an int. -/
def atoi (l : List UInt8) : Int32 :=
  match scanInt l with
  | none => 0
  | some (n, _) => Int32.ofInt (max (-2 ^ 63) (min n (2 ^ 63 - 1)))

/-- The letter of a digit, as a number. -/
theorem digit_toNat {d : Nat} (hd : d < 10) : (digit d).toNat = 48 + d := by
  unfold digit
  rw [UInt8.toNat_ofNat']
  omega

/-- It is taken for a digit. -/
theorem isDigit_digit {d : Nat} (hd : d < 10) : isDigit (digit d) = true := by
  unfold isDigit
  rw [decide_eq_true_eq, UInt8.le_iff_toNat_le, UInt8.le_iff_toNat_le, digit_toNat hd]
  constructor
  · show 48 ≤ 48 + d
    omega
  · show 48 + d ≤ 57
    omega

/-- Digits, the least significant first, stand for their number when they are turned. -/
theorem digitsVal_reverse {ds : List Nat} (h : ∀ d ∈ ds, d < 10) :
    digitsVal ((ds.map digit).reverse) = (Nat.ofDigits 10 ds : Nat) := by
  induction ds with
  | nil => rfl
  | cons d ds ih =>
    rw [List.forall_mem_cons] at h
    have hd := digit_toNat h.1
    have hih := ih h.2
    unfold digitsVal at hih ⊢
    rw [List.map_cons, List.reverse_cons, List.foldl_append, hih, Nat.ofDigits_cons]
    simp only [List.foldl_cons, List.foldl_nil, hd]
    omega

/-- **A number in print** is digits that stand for it. -/
theorem showNat_spec (n : Nat) :
    showNat n ≠ [] ∧ (∀ c ∈ showNat n, isDigit c = true) ∧ digitsVal (showNat n) = n := by
  unfold showNat
  by_cases hn : n = 0
  · subst hn
    rw [if_pos rfl]
    refine ⟨by simp, ?_, by decide⟩
    intro c hc
    rw [List.mem_singleton.mp hc]
    exact isDigit_digit (by omega)
  · rw [if_neg hn]
    have hlt : ∀ d ∈ Nat.digits 10 n, d < 10 := fun d hd => Nat.digits_lt_base (by omega) hd
    refine ⟨?_, ?_, ?_⟩
    · simpa using Nat.digits_ne_nil_iff_ne_zero.mpr hn
    · intro c hc
      simp only [List.mem_reverse, List.mem_map] at hc
      rcases hc with ⟨d, hd, rfl⟩
      exact isDigit_digit (hlt d hd)
    · rw [digitsVal_reverse hlt, Nat.ofDigits_digits]

/-- A digit is no sign. -/
theorem signOf_digits {w : List UInt8} (h : ∀ c ∈ w, isDigit c = true) : signOf w = (false, w) := by
  cases w with
  | nil => rfl
  | cons c r =>
    have hc := h c List.mem_cons_self
    have hne : c ≠ 45 ∧ c ≠ 43 := by
      constructor
      · rintro rfl
        cases hc
      · rintro rfl
        cases hc
    show (if c = 45 then _ else if c = 43 then _ else (false, c :: r)) = _
    rw [if_neg hne.1, if_neg hne.2]

/-- A number in print is a decimal for it. -/
theorem decimal_showInt (n : Int) : decimal (showInt n) = some n := by
  rcases showNat_spec n.natAbs with ⟨hne, hall, hval⟩
  have hdigits : (showNat n.natAbs).all isDigit = true := List.all_eq_true.mpr hall
  unfold showInt decimal
  by_cases hn : n < 0
  · rw [if_pos hn]
    show (if showNat n.natAbs ≠ [] ∧ (showNat n.natAbs).all isDigit = true then
      some (signed true (showNat n.natAbs)) else none) = some n
    rw [if_pos ⟨hne, hdigits⟩]
    unfold signed
    rw [if_pos rfl, hval]
    congr 1
    omega
  · rw [if_neg hn, signOf_digits hall]
    simp only
    rw [if_pos ⟨hne, hdigits⟩]
    unfold signed
    rw [if_neg (by simp), hval]
    congr 1
    omega

/-! ## Words -/

/-- What stands between spaces on a line without a comment. -/
def Word (w : List UInt8) : Prop := w ≠ [] ∧ ∀ c ∈ w, isSpace c = false ∧ c ≠ hash ∧ c ≠ 0

instance (w : List UInt8) : Decidable (Word w) := inferInstanceAs (Decidable (_ ∧ _))

/-- Digits make a word. -/
theorem word_digits {w : List UInt8} (hne : w ≠ []) (h : ∀ c ∈ w, isDigit c = true) : Word w := by
  refine ⟨hne, fun c hc => ?_⟩
  have hdigit := h c hc
  refine ⟨?_, ?_, ?_⟩
  · cases hspace : isSpace c with
    | false => rfl
    | true =>
      rw [digit_not_space hspace] at hdigit
      cases hdigit
  · rintro rfl
    cases hdigit
  · rintro rfl
    cases hdigit

/-- So does a number in print. -/
theorem word_showNat (n : Nat) : Word (showNat n) :=
  word_digits (showNat_spec n).1 (showNat_spec n).2.1

/-- With its sign as well. -/
theorem word_showInt (n : Int) : Word (showInt n) := by
  unfold showInt
  by_cases hn : n < 0
  · rw [if_pos hn]
    refine ⟨by simp, fun c hc => ?_⟩
    rcases List.mem_cons.mp hc with rfl | hmem
    · decide
    · exact (word_showNat n.natAbs).2 c hmem
  · rw [if_neg hn]
    exact word_showNat n.natAbs

/-- A word alone is the first of its line. -/
theorem nextWord_word {w : List UInt8} (hw : Word w) : nextWord isSpace w = some (w, []) := by
  rcases hw with ⟨hne, hall⟩
  have hdrop : w.dropWhile isSpace = w := by
    cases w with
    | nil => rfl
    | cons c r =>
      rw [List.dropWhile_cons_of_neg]
      rw [(hall c List.mem_cons_self).1]
      simp
  have htake : w.takeWhile (!isSpace ·) = w := by
    rw [List.takeWhile_eq_self_iff]
    intro c hc
    rw [(hall c hc).1]
    rfl
  have hrest : w.dropWhile (!isSpace ·) = [] := by
    rw [List.dropWhile_eq_nil_iff]
    intro c hc
    rw [(hall c hc).1]
    rfl
  unfold nextWord
  rw [hdrop]
  cases w with
  | nil => exact absurd rfl hne
  | cons c r => simp only [htake, hrest]

/-- **`atoi` reads what was printed**, as far as an int goes. -/
theorem atoi_showInt {n : Int} (hlo : -2 ^ 63 ≤ n) (hhi : n < 2 ^ 63) :
    atoi (showInt n) = Int32.ofInt n := by
  unfold atoi
  rw [scanInt_word (nextWord_word (word_showInt n)) (decimal_showInt n)]
  simp only
  congr 1
  omega

/-! ## A table in print -/

/-- A key and a value in print, on a line. -/
def printLine (p : List UInt8 × List UInt8) : List UInt8 := p.1 ++ 32 :: p.2

/-- The lines of a table. -/
def printConf (ps : List (List UInt8 × List UInt8)) : List UInt8 :=
  ps.flatMap fun p => printLine p ++ [newline]

/-- Two words that have room in `key[]` and `value[]`. -/
def Printable (p : List UInt8 × List UInt8) : Prop :=
  (Word p.1 ∧ p.1.length < keySize) ∧ Word p.2 ∧ p.2.length < valueSize

instance (p : List UInt8 × List UInt8) : Decidable (Printable p) :=
  inferInstanceAs (Decidable ((_ ∧ _) ∧ _ ∧ _))

/-- The table of pairs; a later one replaces an earlier. -/
def tableOf (ps : List (List UInt8 × List UInt8)) : ConfTable :=
  fun key => ps.reverse.lookup key

variable {p : List UInt8 × List UInt8} {ps : List (List UInt8 × List UInt8)}

/-- The bytes of a line: those of two words, and a space. -/
theorem mem_printLine (hp : Printable p) {c : UInt8} (hc : c ∈ printLine p) :
    c ≠ newline ∧ c ≠ hash ∧ c ≠ 0 := by
  have hword : ∀ {w}, Word w → c ∈ w → c ≠ newline ∧ c ≠ hash ∧ c ≠ 0 := by
    intro w hw hmem
    rcases hw.2 c hmem with ⟨hspace, hhash, hzero⟩
    refine ⟨?_, hhash, hzero⟩
    rintro rfl
    cases hspace
  unfold printLine at hc
  rw [List.mem_append, List.mem_cons] at hc
  rcases hc with hkey | rfl | hvalue
  · exact hword hp.1.1 hkey
  · decide
  · exact hword hp.2.1 hvalue

/-- The words of a printed line are its key and its value. -/
theorem words_printLine (hp : Printable p) : words isSpace (printLine p) = [p.1, p.2] := by
  rcases hp with ⟨⟨hkey, _⟩, hvalue, _⟩
  unfold printLine
  rw [words_append hkey.1 (fun c hc => (hkey.2 c hc).1) (fun c hc => ?_),
    words_sep (show isSpace 32 = true by decide)]
  · have hlast := words_append hvalue.1 (fun c hc => (hvalue.2 c hc).1) (r := [])
      (fun c hc => absurd hc (Option.not_mem_none c))
    rw [List.append_nil] at hlast
    rw [hlast]
    rfl
  · cases hc
    decide

/-- It is handed on: it is not empty and has no `#`. -/
theorem kept_printLine (hp : Printable p) : Kept (printLine p) := by
  refine ⟨?_, fun hhash => (mem_printLine hp hhash).2.1 rfl⟩
  unfold printLine
  simp

/-- The lines of a printed table, in their order. -/
theorem ended_printConf (h : ∀ p ∈ ps, Printable p) :
    ended newline (printConf ps) = ps.map printLine := by
  induction ps with
  | nil => exact ended_of_not_mem (by simp [printConf])
  | cons p ps ih =>
    rw [List.forall_mem_cons] at h
    have hline : newline ∉ printLine p := fun hmem => (mem_printLine h.1 hmem).1 rfl
    unfold printConf at ih ⊢
    rw [List.flatMap_cons, List.append_assoc, List.singleton_append, ended_line hline, ih h.2]
    rfl

/-- No byte of it is zero. -/
theorem zero_not_mem_printConf (h : ∀ p ∈ ps, Printable p) : 0 ∉ printConf ps := by
  intro hzero
  unfold printConf at hzero
  rw [List.mem_flatMap] at hzero
  rcases hzero with ⟨p, hp, hmem⟩
  rcases List.mem_append.mp hmem with hline | hnewline
  · exact (mem_printLine (h p hp) hline).2.2 rfl
  · cases List.mem_singleton.mp hnewline

/-- The last pair counts. -/
theorem tableOf_append_singleton (ps : List (List UInt8 × List UInt8))
    (p : List UInt8 × List UInt8) :
    tableOf (ps ++ [p]) = Function.update (tableOf ps) p.1 (some p.2) := by
  funext key
  unfold tableOf
  rw [List.reverse_append, List.reverse_singleton, List.singleton_append, List.lookup_cons]
  by_cases hkey : key = p.1
  · rw [hkey, Function.update_self, beq_self_eq_true]
  · rw [Function.update_of_ne hkey, beq_false_of_ne hkey]

/-- A printed line puts its pair into the table. -/
theorem simpleLines_table (h : ∀ p ∈ ps, Printable p) (key value : List UInt8) :
    ((ps.map printLine).foldl (fun d l => simpleLine 0 l d) (simpleInit key value)).table =
      tableOf ps := by
  induction ps using List.reverseRecOn with
  | nil => rfl
  | append_singleton ps p ih =>
    rw [List.forall_mem_append, List.forall_mem_singleton] at h
    rw [List.map_append, List.foldl_append, List.map_singleton, List.foldl_cons, List.foldl_nil,
      simpleLine_table, words_printLine h.2, tableOf_append_singleton, ih h.1]

/-- A printed line has room in the buffers of the loader. -/
theorem printLine_room (hp : Printable p) : HasRoom (printLine p) := by
  unfold HasRoom
  rw [words_printLine hp]
  constructor
  · intro key hkey
    cases hkey
    exact hp.1.2
  · intro value hvalue
    cases hvalue
    exact hp.2.2

/-- **A table in print is loaded again**, and nothing else is, whatever the buffers of the
loader hold at first: for any pairs of words, when the text ends inside what is mapped. -/
theorem printed_table_loads {pg : Nat} (hpg : 0 < pg) (h : ∀ p ∈ ps, Printable p)
    (key value : List UInt8) (table : ConfTable) :
    LoadsSimple (mmapFile pg (printConf ps)) key value table ↔
      EndsInside pg (printConf ps) ∧ table = tableOf ps := by
  have hz := zero_not_mem_printConf h
  -- every line in print is a line that the loader keeps
  have hkept : (ended newline (printConf ps)).filter (fun l => Kept l) = ps.map printLine := by
    rw [ended_printConf h, List.filter_eq_self]
    intro l hl
    rcases List.mem_map.mp hl with ⟨p, hp, rfl⟩
    exact decide_eq_true (kept_printLine (h p hp))
  -- and fits its buffers
  have hfit : LinesFit (printConf ps) := by
    intro l hl _
    rw [ended_printConf h] at hl
    rcases List.mem_map.mp hl with ⟨p, hp, rfl⟩
    rcases h p hp with ⟨⟨_, hk⟩, _, hv⟩
    unfold printLine lineSize
    unfold keySize at hk
    unfold valueSize at hv
    rw [List.length_append, List.length_cons]
    omega
  have houtside : ((ps.map printLine).foldl (fun d l => simpleLine 0 l d)
      (simpleInit key value)).outside = false := by
    refine lines_outside (fun l hl => ?_) _
    rcases List.mem_map.mp hl with ⟨p, hp, rfl⟩
    exact printLine_room (h p hp)
  have hscanned : EndsInside pg (printConf ps) → scanned pg (printConf ps) = printConf ps := by
    rintro (hzero | ⟨_, hin⟩)
    · exact absurd (List.mem_of_mem_take hzero) hz
    · exact scanned_eq hz hin
  unfold LoadsSimple
  simp only [mapped_done_iff hpg]
  constructor
  · rintro ⟨d, ⟨hin, _, rfl⟩, htable, _⟩
    rw [hscanned hin, feed_simple, hkept, simpleLines_table h] at htable
    exact ⟨hin, htable.symm⟩
  · rintro ⟨hin, rfl⟩
    refine ⟨_, ⟨hin, ?_, rfl⟩, ?_, ?_⟩
    · rw [hscanned hin]
      exact hfit
    · rw [hscanned hin, feed_simple, hkept, simpleLines_table h]
    · rw [hscanned hin, feed_simple, hkept]
      exact houtside

/-! ## The setting -/

/-- `svr_setting_t`, less `mcast_msg_len`, which nothing sets. -/
structure Setting where
  nrMaxEvent : Int32
  nrMaxFd : Int32
  memQueueLen : Int32
  maxMsgLen : Int32
  maxBufLen : Int32
  srvName : List UInt8
  rawBufLen : Int32
  textSo : List UInt8
  dataSo : List UInt8
  logLevel : UInt8
  logMaxfiles : UInt32
  logSize : UInt32
  logDir : List UInt8
  mcastIp : List UInt8
  mcastPort : UInt16
  mcastOutIp : List UInt8
deriving DecidableEq, Repr

attribute [ext] Setting

/-- `conf_get_str`. -/
def confGetStr (t : ConfTable) (key : List UInt8) : List UInt8 := (t key).getD []

/-- `conf_get_int`. -/
def confGetInt (t : ConfTable) (key : List UInt8) : Int32 :=
  match t key with
  | none => 0
  | some value => atoi value

/-- The assignments and the copies of `init_setting`; `p` is where the strings stand. -/
def initStores (t : ConfTable) (p : List UInt8 → Mem) : List Store :=
  [⟨0, storeLe32 (confGetInt t (ascii "nr_max_event")), 4⟩,
    ⟨4, storeLe32 (confGetInt t (ascii "nr_max_fd")), 4⟩,
    ⟨8, storeLe32 (confGetInt t (ascii "mem_queue_len")), 4⟩,
    ⟨12, storeLe32 (confGetInt t (ascii "max_msg_len")), 4⟩,
    ⟨16, storeLe32 (confGetInt t (ascii "max_buf_len")), 4⟩,
    ⟨20, p (ascii "srv_name"), 32⟩,
    ⟨56, storeLe32 (confGetInt t (ascii "raw_buf_len")), 4⟩,
    ⟨92, p (ascii "data_so"), 32⟩,
    ⟨60, p (ascii "text_so"), 32⟩,
    ⟨124, fun _ => UInt8.ofInt (confGetInt t (ascii "log_level")).toInt, 1⟩,
    ⟨128, storeU32 (UInt32.ofInt (confGetInt t (ascii "log_maxfiles")).toInt), 4⟩,
    ⟨136, p (ascii "log_dir"), (confGetStr t (ascii "log_dir")).length + 1⟩,
    ⟨132, storeU32 (UInt32.ofInt (confGetInt t (ascii "log_size")).toInt), 4⟩,
    ⟨168, p (ascii "mcast_ip"), (confGetStr t (ascii "mcast_ip")).length + 1⟩,
    ⟨184, storeU16 (UInt16.ofInt (confGetInt t (ascii "mcast_port")).toInt), 2⟩,
    ⟨186, p (ascii "mcast_out_ip"), (confGetStr t (ascii "mcast_out_ip")).length + 1⟩]

/-- `init_setting`, on the bytes of `setting`. -/
def initSetting (t : ConfTable) (p : List UInt8 → Mem) (m : Mem) : Mem := stores m (initStores t p)

/-- The fields of `setting`, as they are read. -/
def readSetting (m : Mem) : Setting where
  nrMaxEvent := loadLe32 (m.ptr 0)
  nrMaxFd := loadLe32 (m.ptr 4)
  memQueueLen := loadLe32 (m.ptr 8)
  maxMsgLen := loadLe32 (m.ptr 12)
  maxBufLen := loadLe32 (m.ptr 16)
  srvName := cstr 32 (m.ptr 20)
  rawBufLen := loadLe32 (m.ptr 56)
  textSo := cstr 32 (m.ptr 60)
  dataSo := cstr 32 (m.ptr 92)
  logLevel := m 124
  logMaxfiles := loadU32 (m.ptr 128)
  logSize := loadU32 (m.ptr 132)
  logDir := cstr 32 (m.ptr 136)
  mcastIp := cstr 16 (m.ptr 168)
  mcastPort := loadU16 (m.ptr 184)
  mcastOutIp := cstr 16 (m.ptr 186)

/-- The fields, in the order in which they are set. -/
def settingFields : List Field :=
  [(0, 4), (4, 4), (8, 4), (12, 4), (16, 4), (20, 32), (56, 4), (92, 32), (60, 32), (124, 1),
    (128, 4), (136, 32), (132, 4), (168, 16), (184, 2), (186, 16)]

/-- The strings have room for their terminators. -/
structure Setting.Fits (c : Setting) : Prop where
  srvName : c.srvName.length < 32
  textSo : c.textSo.length < 32
  dataSo : c.dataSo.length < 32
  logDir : c.logDir.length < 32
  mcastIp : c.mcastIp.length < 16
  mcastOutIp : c.mcastOutIp.length < 16

/-- What a setting says in `simple.conf`. -/
def Setting.entries (c : Setting) : List (List UInt8 × List UInt8) :=
  [(ascii "nr_max_event", showInt c.nrMaxEvent.toInt),
    (ascii "nr_max_fd", showInt c.nrMaxFd.toInt),
    (ascii "mem_queue_len", showInt c.memQueueLen.toInt),
    (ascii "max_msg_len", showInt c.maxMsgLen.toInt),
    (ascii "max_buf_len", showInt c.maxBufLen.toInt),
    (ascii "srv_name", c.srvName),
    (ascii "raw_buf_len", showInt c.rawBufLen.toInt),
    (ascii "text_so", c.textSo),
    (ascii "data_so", c.dataSo),
    (ascii "log_level", showInt c.logLevel.toNat),
    (ascii "log_maxfiles", showInt c.logMaxfiles.toNat),
    (ascii "log_size", showInt c.logSize.toNat),
    (ascii "log_dir", c.logDir),
    (ascii "mcast_ip", c.mcastIp),
    (ascii "mcast_port", showInt c.mcastPort.toNat),
    (ascii "mcast_out_ip", c.mcastOutIp)]

section Init

variable {t : ConfTable} {p : List UInt8 → Mem} {m : Mem} {c : Setting} {key s : List UInt8}

/-- No two fields of `setting` share a byte. -/
theorem settingFields_apart : settingFields.Pairwise Field.Apart := by decide

/-- The value of a key that is there. -/
theorem confGetStr_some (hkey : t key = some s) : confGetStr t key = s := by
  unfold confGetStr
  rw [hkey]
  rfl

/-- With room for the strings that are copied by `strcpy`, every store stays in its field. -/
theorem initStores_fill (hc : c.Fits) (ht : ∀ e ∈ c.entries, t e.1 = some e.2) :
    List.Forall₂ Store.Fills (initStores t p) settingFields := by
  have hentry : ∀ (i : Nat) {e}, c.entries[i]? = some e → confGetStr t e.1 = e.2 :=
    fun i _ hi => confGetStr_some (ht _ (List.mem_of_getElem? hi))
  have hdir : confGetStr t (ascii "log_dir") = c.logDir := hentry 12 rfl
  have hip : confGetStr t (ascii "mcast_ip") = c.mcastIp := hentry 13 rfl
  have hout : confGetStr t (ascii "mcast_out_ip") = c.mcastOutIp := hentry 15 rfl
  rcases hc with ⟨_, _, _, hdirlen, hiplen, houtlen⟩
  unfold initStores settingFields Store.Fills
  rw [hdir, hip, hout]
  simp only [List.forall₂_cons, List.Forall₂.nil, and_true, true_and, le_refl]
  omega

/-- A number of 32 bits or fewer survives being an int. -/
theorem emod_ofInt {d : Int} (hd : d ∣ Int32.size) (n : Int) :
    (Int32.ofInt n).toInt % d = n % d := by
  rw [Int32.toInt_ofInt, ← Int.emod_emod_of_dvd _ hd, Int.bmod_emod, Int.emod_emod_of_dvd _ hd]

/-- A byte comes back from an int. -/
theorem u8_ofInt (v : UInt8) : UInt8.ofInt (Int32.ofInt v.toNat).toInt = v := by
  unfold UInt8.ofInt
  rw [emod_ofInt (by decide)]
  have hv := v.toNat_lt
  rw [Int.emod_eq_of_lt (by omega) (by omega), Int.toNat_natCast, UInt8.ofNat_toNat]

/-- So does a half word. -/
theorem u16_ofInt (v : UInt16) : UInt16.ofInt (Int32.ofInt v.toNat).toInt = v := by
  unfold UInt16.ofInt
  rw [emod_ofInt (by decide)]
  have hv := v.toNat_lt
  rw [Int.emod_eq_of_lt (by omega) (by omega), Int.toNat_natCast, UInt16.ofNat_toNat]

/-- So does an unsigned word, over its negative int. -/
theorem u32_ofInt (v : UInt32) : UInt32.ofInt (Int32.ofInt v.toNat).toInt = v := by
  unfold UInt32.ofInt
  rw [emod_ofInt (by decide)]
  have hv := v.toNat_lt
  rw [Int.emod_eq_of_lt (by omega) (by omega), Int.toNat_natCast, UInt32.ofNat_toNat]

/-- A printed number is read, and cut to an int. -/
theorem confGetInt_show {n : Int} (hkey : t key = some (showInt n)) (hlo : -2 ^ 63 ≤ n)
    (hhi : n < 2 ^ 63) : confGetInt t key = Int32.ofInt n := by
  unfold confGetInt
  rw [hkey]
  exact atoi_showInt hlo hhi

/-- An int is read as it is. -/
theorem confGetInt_int32 {v : Int32} (hkey : t key = some (showInt v.toInt)) :
    confGetInt t key = v := by
  have hlo := v.le_toInt
  have hhi := v.toInt_lt
  rw [confGetInt_show hkey (by omega) (by omega), Int32.ofInt_toInt]

/-- A string that is stored whole is read back. -/
theorem cstr_field {ws : List Store} {fs : List Field} (hfills : List.Forall₂ Store.Fills ws fs)
    (hapart : fs.Pairwise Field.Apart) {pos len : Int} {n : Nat}
    (hw : ⟨pos, p key, len⟩ ∈ ws) (hp : ∀ k, Holds (p k) (confGetStr t k))
    (hkey : t key = some s) (hnz : 0 ∉ s) (hlen : s.length < len) (hn : s.length < n) :
    cstr n ((stores m ws).ptr pos) = s := by
  have hsrc := hp key
  rw [confGetStr_some hkey] at hsrc
  exact (stores_holds hfills hapart hw hsrc hlen).cstr hnz hn

/-- **`init_setting` leaves in memory what the table says.** -/
theorem readSetting_initSetting (hc : c.Fits) (hp : ∀ k, Holds (p k) (confGetStr t k))
    (ht : ∀ e ∈ c.entries, t e.1 = some e.2) (hnz : ∀ e ∈ c.entries, 0 ∉ e.2) :
    readSetting (initSetting t p m) = c := by
  have hfills : List.Forall₂ Store.Fills (initStores t p) settingFields := initStores_fill hc ht
  unfold Setting.entries at ht hnz
  simp only [List.forall_mem_cons] at ht hnz
  obtain ⟨hevent, hfd, hqueue, hmsg, hbuf, hname, hraw, htext, hdata, hlevel, hfiles, hsize, hdir,
    hip, hport, hout, -⟩ := ht
  obtain ⟨-, -, -, -, -, nzname, -, nztext, nzdata, -, -, -, nzdir, nzip, -, nzout, -⟩ := hnz
  have hmem : ∀ {w : Store} (i : Nat), (initStores t p)[i]? = some w → w ∈ initStores t p :=
    fun i hi => List.mem_of_getElem? hi
  -- one lemma for each kind of field; the sixteen fields are cases of them
  have hint : ∀ {pos : Int} {v : Int32} {k : List UInt8} (i : Nat), t k = some (showInt v.toInt) →
      (initStores t p)[i]? = some ⟨pos, storeLe32 (confGetInt t k), 4⟩ →
      loadLe32 ((initSetting t p m).ptr pos) = v := by
    intro pos v k i hkey hi
    rw [confGetInt_int32 hkey] at hi
    exact stores_le32 hfills settingFields_apart (hmem i hi)
  have hu32 : ∀ {pos : Int} {v : UInt32} {k : List UInt8} (i : Nat),
      t k = some (showInt v.toNat) →
      (initStores t p)[i]? = some ⟨pos, storeU32 (UInt32.ofInt (confGetInt t k).toInt), 4⟩ →
      loadU32 ((initSetting t p m).ptr pos) = v := by
    intro pos v k i hkey hi
    have hv := v.toNat_lt
    rw [confGetInt_show hkey (by omega) (by omega), u32_ofInt] at hi
    exact stores_u32 hfills settingFields_apart (hmem i hi)
  have hstr : ∀ {pos len : Int} {n : Nat} {k s : List UInt8} (i : Nat), t k = some s → 0 ∉ s →
      (initStores t p)[i]? = some ⟨pos, p k, len⟩ → s.length < len → s.length < n →
      cstr n ((initSetting t p m).ptr pos) = s :=
    fun i hkey hz hi hlen hn =>
      cstr_field hfills settingFields_apart (hmem i hi) hp hkey hz hlen hn
  have hstrlen : ∀ {k s : List UInt8} (n : Int), t k = some s →
      (confGetStr t k).length + 1 = n → (s.length : Int) < n := by
    intro k s n hkey hn
    rw [confGetStr_some hkey] at hn
    omega
  apply Setting.ext
  case nrMaxEvent => exact hint 0 hevent rfl
  case nrMaxFd => exact hint 1 hfd rfl
  case memQueueLen => exact hint 2 hqueue rfl
  case maxMsgLen => exact hint 3 hmsg rfl
  case maxBufLen => exact hint 4 hbuf rfl
  case srvName => exact hstr 5 hname nzname rfl (by exact_mod_cast hc.srvName) hc.srvName
  case rawBufLen => exact hint 6 hraw rfl
  case dataSo => exact hstr 7 hdata nzdata rfl (by exact_mod_cast hc.dataSo) hc.dataSo
  case textSo => exact hstr 8 htext nztext rfl (by exact_mod_cast hc.textSo) hc.textSo
  case logLevel =>
    have hv := c.logLevel.toNat_lt
    -- one byte of the number is stored
    have hone := stores_in (m := m) hfills settingFields_apart (hmem 9 rfl) (i := 0)
      (by omega) (show (0 : Int) < 1 by omega)
    rw [confGetInt_show hlevel (by omega) (by omega), u8_ofInt] at hone
    exact hone
  case logMaxfiles => exact hu32 10 hfiles rfl
  case logDir => exact hstr 11 hdir nzdir rfl (hstrlen _ hdir rfl) hc.logDir
  case logSize => exact hu32 12 hsize rfl
  case mcastIp => exact hstr 13 hip nzip rfl (hstrlen _ hip rfl) hc.mcastIp
  case mcastPort =>
    have hv := c.mcastPort.toNat_lt
    have hi : (initStores t p)[14]? =
        some ⟨184, storeU16 (UInt16.ofInt (confGetInt t (ascii "mcast_port")).toInt), 2⟩ := rfl
    rw [confGetInt_show hport (by omega) (by omega), u16_ofInt] at hi
    exact stores_u16 hfills settingFields_apart (hmem 14 hi)
  case mcastOutIp => exact hstr 15 hout nzout rfl (hstrlen _ hout rfl) hc.mcastOutIp

/-- Nothing sets `mcast_msg_len`. -/
theorem initSetting_mcastMsgLen (hfills : List.Forall₂ Store.Fills (initStores t p) settingFields) :
    loadLe32 ((initSetting t p m).ptr 52) = loadLe32 (m.ptr 52) := by
  have hapart : ∀ f ∈ settingFields, Field.Apart f (52, 4) := by decide
  refine loadLe32_congr fun i h0 hi => stores_out fun w hw => ?_
  rcases fills_mem hfills hw with ⟨f, hf, hpos, hlen⟩
  rcases hapart f hf with hle | hle
  · simp only at hle
    omega
  · simp only at hle
    omega

/-- **A setting in print comes back**: whatever lines stand in `simple.conf`, in whatever
order, when the last one for each key is the setting's, then `load_simple_data` and
`init_setting` leave the setting in memory, wherever the strings stand, and `mcast_msg_len`
as it was. -/
theorem setting_round_trip {pg : Nat} {ps : List (List UInt8 × List UInt8)} (hpg : 0 < pg)
    (h : ∀ p ∈ ps, Printable p) (hin : EndsInside pg (printConf ps)) (hc : c.Fits)
    (hps : ∀ e ∈ c.entries, tableOf ps e.1 = some e.2) (key value : List UInt8) :
    (∃ table, LoadsSimple (mmapFile pg (printConf ps)) key value table) ∧
      ∀ table, LoadsSimple (mmapFile pg (printConf ps)) key value table →
        ∀ p m, (∀ k, Holds (p k) (confGetStr table k)) →
          readSetting (initSetting table p m) = c ∧
            loadLe32 ((initSetting table p m).ptr 52) = loadLe32 (m.ptr 52) := by
  have hloads := printed_table_loads hpg h key value
  refine ⟨⟨tableOf ps, (hloads _).mpr ⟨hin, rfl⟩⟩, ?_⟩
  intro table htable p m hp
  rcases (hloads table).mp htable with ⟨_, rfl⟩
  have hnz : ∀ e ∈ c.entries, 0 ∉ e.2 := by
    intro e he hzero
    rcases List.lookup_eq_some_iff.mp (hps e he) with ⟨l, r, hsplit, _⟩
    have hmem : (e.1, e.2) ∈ ps := by
      rw [← List.mem_reverse, hsplit]
      exact List.mem_append_right l List.mem_cons_self
    exact ((h _ hmem).2.1.2 0 hzero).2.2 rfl
  exact ⟨readSetting_initSetting hc hp hps hnz, initSetting_mcastMsgLen (initStores_fill hc hps)⟩

/-- What stands in `simple.conf`. -/
def online : Setting where
  nrMaxEvent := 100
  nrMaxFd := 300
  memQueueLen := 10240000
  maxMsgLen := 1024000
  maxBufLen := 10240000
  srvName := ascii "online"
  rawBufLen := 1024000
  textSo := ascii "./test_serv.so"
  dataSo := ascii "./data.so"
  logLevel := 5
  logMaxfiles := 10000
  logSize := 10240000
  logDir := ascii "./log"
  mcastIp := ascii "239.0.0.2"
  mcastPort := 8888
  mcastOutIp := ascii "127.0.0.1"

/-- Its lines, behind an older one. -/
def onlineLines : List (List UInt8 × List UInt8) :=
  (ascii "log_level", ascii "3") :: (ascii "switch_port", ascii "7000") :: online.entries

/-- A whole file of the server's keys. -/
theorem setting_round_trip_online :
    ∃ table, LoadsSimple (mmapFile 4096 (printConf onlineLines)) [] [] table ∧
      readSetting (initSetting table (fun k => ofBytes (confGetStr table k ++ [0])) fun _ => 0) =
        online := by
  obtain ⟨⟨table, htable⟩, hall⟩ := @setting_round_trip online 4096 onlineLines
    (by decide) (by decide +kernel) (Or.inr (by decide +kernel))
    ⟨by decide, by decide, by decide, by decide, by decide, by decide⟩ (by decide +kernel) [] []
  refine ⟨table, htable, (hall table htable _ _ fun k => ?_).1⟩
  have hself := bytes_ofBytes (confGetStr table k ++ [0])
  rw [List.length_append, List.length_singleton] at hself
  exact_mod_cast hself

end Init

end SServer.Conf
