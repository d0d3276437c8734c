import Mathlib.Data.Nat.Digits.Lemmas
import SServer.Conf.Setting
import SServer.Lib.Strs

/-!
# SServer.Util.Title — the name that `ps` shows

A process is shown under what stands where the kernel put its arguments. `save_args` keeps
copies of them, moves the environment, which stands behind them, to the heap, and takes the
room of both for the title; `chg_proc_title` writes a title there and fills the rest with
zeros. It looks neither at the size of its own buffer nor at that of the room.

The result: whatever titles a process takes, one after another, the environment and the
copies read as at the start and the last title is shown, exactly when each title is shorter
than 128 bytes and than the room.

* `saveArgs_saved`: what `save_args` leaves: copies and environment away from the room.
* `chgProcTitle_shown`: a title that fits is shown, with zeros behind it.
* `takeTitles_spec`: titles, one after another.
* `titles_keep_environ`: the result, for any layout and any place of the copies.
* `titleFits_server`: the two titles of this server have room in the buffer of `chg_proc_title`.

What `vsprintf` makes of its arguments is the title itself. `prctl`, which sets a shorter name
besides, is left out, and `strdup` succeeds.
-/

namespace SServer.Util

open SServer.Lib

/-! ## The code -/

/-- What is known of a process: its memory, the pointers of `argv` and `environ`, the globals of
`save_args`, and whether a write has left its place. -/
structure ProcSt where
  mem : Mem
  argv : List Int
  environ : List Int
  gArgv : List Int
  argvStart : Int
  argvEnd : Int
  outside : Bool

/-- The size of `title`. -/
def titleSize : Nat := 128

variable (max : Nat)

/-- `save_args`; `copies` are what `strdup` answers, `envNew` what `malloc` does. -/
def saveArgs (copies : List Int) (envNew : Option Int) (s : ProcSt) : ProcSt :=
  let mem := dupAll max (s.argv.zip copies) s.mem
  let last := s.argv.getLastD 0
  let s := { s with
    mem := mem
    gArgv := copies
    argvStart := s.argv.headD 0
    argvEnd := last + strlen max (mem.ptr last) + 1 }
  match envNew with
  | none => s
  | some d =>
    let r := moveAll max s.environ s.mem d s.argvEnd
    { s with mem := r.1, argvEnd := r.2.1, environ := r.2.2 }

/-- `chg_proc_title`, with what `vsprintf` makes of its arguments. -/
def chgProcTitle (s : ProcSt) (title : List UInt8) : ProcSt :=
  let len := title.length
  let mem := memcpy s.mem s.argvStart (ofBytes title) len
  let mem := memcpy mem (s.argvStart + len) (fun _ => 0) 1
  -- clear old environ
  let mem := memcpy mem (s.argvStart + len) (fun _ => 0) (s.argvEnd - s.argvStart - len)
  { s with
    mem := mem
    outside := s.outside || decide (titleSize ≤ len) ||
      decide (s.argvEnd - s.argvStart < (len : Int) + 1) }

/-- The title of the master: `setting.srv_name`, which has no `%`. -/
def masterTitle (srvName : List UInt8) : List UInt8 := srvName

/-- The title of a worker, by `"%s-%d"`. -/
def workTitle (srvName : List UInt8) (id : UInt32) : List UInt8 :=
  srvName ++ 45 :: Conf.showInt id.toInt32.toInt

/-- A process takes titles. -/
def takeTitles (ts : List (List UInt8)) (s : ProcSt) : ProcSt := ts.foldl chgProcTitle s

/-! ## What is given -/

/-- How the kernel starts a process: the arguments side by side from `base` on, and the
environment behind them. -/
structure Started (base : Int) (args env : List (List UInt8)) (s : ProcSt) : Prop where
  argv : s.argv = (placed base args).map (·.pos)
  environ : s.environ = (placed (base + total args) env).map (·.pos)
  stands : ∀ x ∈ placed base (args ++ env), x.In s.mem
  inside : s.outside = false

/-- Where the arguments and the environment stand. -/
def startField (base : Int) (args env : List (List UInt8)) : Field :=
  (base, (total (args ++ env) : Nat))

/-- The blocks that `save_args` gets: one for each argument, and one for the environment. -/
def savedFields (args env : List (List UInt8)) (copies : List Int) (envNew : Option Int) :
    List Field :=
  (args.zip copies).map (fun c => (c.2, (c.1.length : Int) + 1)) ++
    envNew.toList.map fun d => (d, (total env : Int))

/-- The allocator gives blocks that are apart from each other and from what there was. -/
structure Allocated (base : Int) (args env : List (List UInt8)) (copies : List Int)
    (envNew : Option Int) : Prop where
  count : copies.length = args.length
  apart : (savedFields args env copies envNew).Pairwise Field.Apart
  away : ∀ f ∈ savedFields args env copies envNew, Field.Apart (startField base args env) f

/-- The room for titles. -/
def room (args env : List (List UInt8)) (envNew : Option Int) : Nat :=
  total args + if envNew.isSome then total env else 0

/-- The pointers lead to the strings. -/
def Reads (m : Mem) (ps : List Int) (ss : List (List UInt8)) : Prop :=
  List.Forall₂ (fun p s => Holds (m.ptr p) s) ps ss

/-- A title fits: `title[]`, and the room behind its terminator. -/
def TitleFits (n : Nat) (t : List UInt8) : Prop := t.length < titleSize ∧ t.length < n

instance (n : Nat) (t : List UInt8) : Decidable (TitleFits n t) :=
  inferInstanceAs (Decidable (_ ∧ _))

/-! ## The start -/

/-- Strings that are read through pointers, and stand away from the room. -/
def Kept (base : Int) (n : Nat) (ss : List (List UInt8)) (ps : List Int) (m : Mem) : Prop :=
  ∃ xs : List StrAt, xs.map (·.pos) = ps ∧ xs.map (·.str) = ss ∧
    ∀ x ∈ xs, x.In m ∧ Field.Apart x.field (base, (n : Int))

/-- A process behind `save_args`. -/
structure Saved (base : Int) (n : Nat) (args env : List (List UInt8)) (s : ProcSt) : Prop where
  start : s.argvStart = base
  stop : s.argvEnd = base + n
  inside : s.outside = false
  environ : Kept base n env s.environ s.mem
  gArgv : Kept base n args s.gArgv s.mem

variable {max} {base : Int} {args env : List (List UInt8)} {copies : List Int}
  {envNew : Option Int} {s : ProcSt}

/-- The arguments with the blocks for their copies. -/
def argBlocks (base : Int) (args : List (List UInt8)) (copies : List Int) : List (StrAt × Int) :=
  (placed base args).zip copies

/-- Each argument with the block of its copy. -/
theorem argBlocks_zip (base : Int) (args : List (List UInt8)) (copies : List Int) :
    (argBlocks base args copies).map (fun c => (c.1.pos, c.2)) =
      ((placed base args).map (·.pos)).zip copies := by
  unfold argBlocks
  rw [List.zip_map_left]
  rfl

/-- The copies take up their blocks. -/
theorem argBlocks_fields (base : Int) (args : List (List UInt8)) (copies : List Int) :
    (argBlocks base args copies).map (fun c => (dupOf c).field) =
      (args.zip copies).map fun c => (c.2, (c.1.length : Int) + 1) := by
  unfold argBlocks
  conv_rhs => rw [← placed_str base args, List.zip_map_left, List.map_map]
  rfl

/-- What is copied is an argument. -/
theorem argBlocks_arg {c : StrAt × Int} (hc : c ∈ argBlocks base args copies) :
    c.1 ∈ placed base args := (List.of_mem_zip hc).1

/-- Its copy is among what is saved. -/
theorem argBlocks_field {c : StrAt × Int} (hc : c ∈ argBlocks base args copies) :
    (dupOf c).field ∈ savedFields args env copies envNew := by
  unfold savedFields
  rw [← argBlocks_fields base]
  exact List.mem_append_left _ (List.mem_map_of_mem hc)

/-- What stood there at the start, and where. -/
theorem placed_start {x : StrAt} (hx : x ∈ placed base (args ++ env)) :
    x.field.Within (startField base args env) := by
  rcases placed_within hx with ⟨hlo, hhi, _⟩
  exact ⟨hlo, hhi⟩

/-- The arguments stand where the process was started with them. -/
theorem arg_start {x : StrAt} (hx : x ∈ placed base args) : x ∈ placed base (args ++ env) := by
  rw [placed_append]
  exact List.mem_append_left _ hx

/-- So does the environment, behind them. -/
theorem env_start {x : StrAt} (hx : x ∈ placed (base + total args) env) :
    x ∈ placed base (args ++ env) := by
  rw [placed_append]
  exact List.mem_append_right _ hx

/-- The memory behind the copies of the arguments. -/
def dupped (max : Nat) (copies : List Int) (s : ProcSt) : Mem :=
  dupAll max (s.argv.zip copies) s.mem

/-- The copies are there, and what there was. -/
theorem dupped_spec (hplain : ∀ s ∈ args ++ env, Plain max s) (hs : Started base args env s)
    (ha : Allocated base args env copies envNew) :
    (∀ c ∈ argBlocks base args copies, (dupOf c).In (dupped max copies s)) ∧
      ∀ x ∈ placed base (args ++ env), x.In (dupped max copies s) := by
  have hsrc : ∀ x ∈ placed base (args ++ env), ∀ d ∈ argBlocks base args copies,
      Field.Apart x.field (dupOf d).field := fun x hx d hd =>
    (ha.away _ (argBlocks_field hd)).mono (placed_start hx) (Field.within_self _)
  have hdst : (argBlocks base args copies).Pairwise
      fun c d => Field.Apart (dupOf c).field (dupOf d).field := by
    have hfields := (List.pairwise_append.mp ha.apart).1
    rw [← argBlocks_fields base, List.pairwise_map] at hfields
    exact hfields
  obtain ⟨hcopies, hframe⟩ := @dupAll_spec max s.mem (argBlocks base args copies)
    (fun c hc => hplain _ (List.mem_append_left env (placed_within (argBlocks_arg hc)).2.2))
    (fun c hc => hs.stands _ (arg_start (argBlocks_arg hc)))
    (fun c hc d hd => hsrc _ (arg_start (argBlocks_arg hc)) d hd) hdst
  rw [argBlocks_zip, ← hs.argv] at hcopies hframe
  refine ⟨hcopies, fun x hx => (hs.stands x hx).frame fun a hlo hhi => hframe a fun d hd => ?_⟩
  rcases hsrc x hx d hd with hle | hle
  · simp only [StrAt.field, dupOf] at hle
    omega
  · simp only [StrAt.field, dupOf] at hle
    omega

/-- **What `save_args` leaves**: copies and environment away from the room. -/
theorem saveArgs_saved (hargs : args ≠ []) (hplain : ∀ s ∈ args ++ env, Plain max s)
    (hs : Started base args env s) (ha : Allocated base args env copies envNew) :
    Saved base (room args env envNew) args env (saveArgs max copies envNew s) := by
  obtain ⟨hcopies, hstands⟩ := dupped_spec hplain hs ha
  obtain ⟨x, hx, hlast, hend⟩ := placed_last hargs base
  have hstart : s.argv.headD 0 = base := by
    rw [hs.argv]
    cases args with
    | nil => exact absurd rfl hargs
    | cons a as => rfl
  have hlen : s.argv.getLastD 0 + strlen max ((dupped max copies s).ptr (s.argv.getLastD 0)) + 1 =
      base + total args := by
    have hstr := (hstands x (arg_start hx)).strlen
      (hplain _ (List.mem_append_left env (placed_within hx).2.2))
    rw [hs.argv, hlast, hstr]
    omega
  -- the copies of the arguments
  have hptrs : ((argBlocks base args copies).map dupOf).map (·.pos) = copies := by
    rw [List.map_map]
    refine List.map_snd_zip (Nat.le_of_eq ?_)
    rw [ha.count, placed_length]
  have hstrs : ((argBlocks base args copies).map dupOf).map (·.str) = args := by
    have hfst : (argBlocks base args copies).map (·.1) = placed base args := by
      refine List.map_fst_zip (Nat.le_of_eq ?_)
      rw [ha.count, placed_length]
    rw [List.map_map]
    conv_rhs => rw [← placed_str base args, ← hfst, List.map_map]
    rfl
  have haway : ∀ {n : Nat}, n ≤ total (args ++ env) → ∀ f ∈ savedFields args env copies envNew,
      Field.Apart f (base, (n : Int)) := by
    intro n hn f hf
    have hwithin : Field.Within (base, (n : Int)) (startField base args env) := by
      unfold Field.Within startField
      simp only
      omega
    exact ((ha.away f hf).mono hwithin (Field.within_self f)).symm
  cases henv : envNew with
  | none =>
    -- the environment stays where it is, and the room ends before it
    have hroom : room args env none = total args := Nat.add_zero _
    rw [hroom]
    refine ⟨hstart, hlen, hs.inside, ⟨placed (base + total args) env, hs.environ.symm,
      placed_str _ env, fun y hy => ⟨hstands y (env_start hy), Or.inr (placed_within hy).1⟩⟩, ?_⟩
    refine ⟨_, hptrs, hstrs, fun y hy => ?_⟩
    rcases List.mem_map.mp hy with ⟨c, hc, rfl⟩
    refine ⟨hcopies c hc, haway ?_ _ (argBlocks_field hc)⟩
    rw [total_append]
    omega
  | some d =>
    have hblock : (d, (total env : Int)) ∈ savedFields args env copies envNew := by
      unfold savedFields
      rw [henv]
      exact List.mem_append_right _ List.mem_cons_self
    have hroom : room args env (some d) = total (args ++ env) := (total_append args env).symm
    have hstr := placed_str (base + total args) env
    obtain ⟨hplaced, hsize, hnew, hframe⟩ := @moveAll_spec max (dupped max copies s)
      (placed (base + total args) env) d (base + total args)
      (fun y hy => hplain _ (List.mem_append_right args (placed_within hy).2.2))
      (fun y hy => hstands y (env_start hy))
      (fun y hy => by
        rw [hstr]
        exact (ha.away _ hblock).mono (placed_start (env_start hy)) (Field.within_self _))
    rw [hstr, ← hs.environ, ← hlen] at hplaced hsize hnew hframe
    rw [hroom]
    refine ⟨hstart, ?_, hs.inside, ⟨placed d env, hnew.symm, placed_str d env, fun y hy => ?_⟩, ?_⟩
    · refine hsize.trans ?_
      rw [hlen, total_append]
      omega
    · refine ⟨hplaced y hy, ?_⟩
      rcases placed_within hy with ⟨hlo, hhi, _⟩
      exact (haway (Nat.le_refl _) _ hblock).mono ⟨hlo, hhi⟩ (Field.within_self _)
    · refine ⟨_, hptrs, hstrs, fun y hy => ?_⟩
      rcases List.mem_map.mp hy with ⟨c, hc, rfl⟩
      have hfield := @argBlocks_field base args env copies envNew c hc
      refine ⟨?_, haway (Nat.le_refl _) _ hfield⟩
      -- the block of the environment is another one
      have hcross : Field.Apart (dupOf c).field (d, (total env : Int)) := by
        refine (List.pairwise_append.mp ha.apart).2.2 _ ?_ _ ?_
        · rw [← argBlocks_fields base]
          exact List.mem_map_of_mem hc
        · rw [henv]
          exact List.mem_cons_self
      refine (hcopies c hc).frame fun a hlo hhi => hframe a ?_
      rcases hcross with hle | hle
      · simp only [StrAt.field, dupOf] at hle hlo hhi
        omega
      · simp only [StrAt.field, dupOf] at hle hlo hhi
        omega

/-! ## Titles -/

/-- A title that fits stays in the room. -/
theorem chgProcTitle_out {n : Nat} {t : List UInt8} (hstart : s.argvStart = base)
    (hstop : s.argvEnd = base + n) (ht : t.length < n) {a : Int} (ha : a < base ∨ base + n ≤ a) :
    (chgProcTitle s t).mem a = s.mem a := by
  unfold chgProcTitle
  simp only [hstart, hstop]
  rw [memcpy_out (by omega), memcpy_out (by omega), memcpy_out (by omega)]

/-- **A title that fits is shown**, with zeros behind it to the end of the room. -/
theorem chgProcTitle_shown {n : Nat} {t : List UInt8} (hstart : s.argvStart = base)
    (hstop : s.argvEnd = base + n) (ht : t.length < n) :
    bytes ((chgProcTitle s t).mem.ptr base) n = t ++ List.replicate (n - t.length) 0 := by
  have hbyte : ∀ i : Nat, i < n →
      (chgProcTitle s t).mem (base + i) = if i < t.length then ofBytes t i else 0 := by
    intro i hi
    unfold chgProcTitle
    simp only [hstart, hstop]
    by_cases hlt : i < t.length
    · rw [if_pos hlt, memcpy_out (by omega), memcpy_out (by omega), memcpy_in (by omega)]
      congr 1
      omega
    · rw [if_neg hlt, memcpy_in (by omega)]
  apply List.ext_getElem?
  intro i
  by_cases hi : i < n
  · rw [bytes_getElem? (by omega), Mem.ptr_apply, hbyte i hi]
    by_cases hlt : i < t.length
    · rw [if_pos hlt, List.getElem?_append_left hlt, ofBytes_getElem hlt]
      exact (List.getElem?_eq_getElem hlt).symm
    · rw [if_neg hlt, List.getElem?_append_right (by omega), List.getElem?_replicate]
      rw [if_pos (by omega)]
  · rw [List.getElem?_eq_none (by rw [bytes_length]; omega), List.getElem?_eq_none]
    rw [List.length_append, List.length_replicate]
    omega

/-- A title is written outside of its places exactly when it does not fit. -/
theorem chgProcTitle_outside {n : Nat} {t : List UInt8} (hstart : s.argvStart = base)
    (hstop : s.argvEnd = base + n) :
    (chgProcTitle s t).outside = false ↔ s.outside = false ∧ TitleFits n t := by
  unfold chgProcTitle TitleFits
  simp only [hstart, hstop, Bool.or_eq_false_iff, decide_eq_false_iff_not, and_assoc]
  refine and_congr_right fun _ => and_congr ?_ ?_
  · omega
  · omega

/-- The pointers stay. -/
theorem takeTitles_ptrs (ts : List (List UInt8)) (s : ProcSt) :
    (takeTitles ts s).argvStart = s.argvStart ∧ (takeTitles ts s).argvEnd = s.argvEnd ∧
      (takeTitles ts s).environ = s.environ ∧ (takeTitles ts s).gArgv = s.gArgv := by
  unfold takeTitles
  induction ts generalizing s with
  | nil => exact ⟨rfl, rfl, rfl, rfl⟩
  | cons t ts ih => exact ih (chgProcTitle s t)

/-- One more title. -/
theorem takeTitles_concat (ts : List (List UInt8)) (t : List UInt8) (s : ProcSt) :
    takeTitles (ts ++ [t]) s = chgProcTitle (takeTitles ts s) t := by
  unfold takeTitles
  rw [List.foldl_append]
  rfl

/-- **Titles, one after another.** -/
theorem takeTitles_spec {n : Nat} (hstart : s.argvStart = base) (hstop : s.argvEnd = base + n)
    (hinside : s.outside = false) (ts : List (List UInt8)) :
    ((takeTitles ts s).outside = false ↔ ∀ t ∈ ts, TitleFits n t) ∧
      ((∀ t ∈ ts, TitleFits n t) →
        (∀ a, a < base ∨ base + n ≤ a → (takeTitles ts s).mem a = s.mem a) ∧
        ∀ t ∈ ts.getLast?,
          bytes ((takeTitles ts s).mem.ptr base) n = t ++ List.replicate (n - t.length) 0) := by
  induction ts using List.reverseRecOn with
  | nil => exact ⟨by simp [takeTitles, hinside], fun _ => ⟨fun _ _ => rfl, by simp⟩⟩
  | append_singleton ts t ih =>
    rcases ih with ⟨hiff, hkept⟩
    rcases takeTitles_ptrs ts s with ⟨hstart', hstop', _, _⟩
    have hs := hstart'.trans hstart
    have he := hstop'.trans hstop
    rw [takeTitles_concat, List.forall_mem_append, List.forall_mem_singleton]
    refine ⟨?_, fun hfits => ⟨fun a ha => ?_, fun u hu => ?_⟩⟩
    · rw [chgProcTitle_outside hs he, hiff]
    · rw [chgProcTitle_out hs he hfits.2.2 ha, (hkept hfits.1).1 a ha]
    · rw [List.getLast?_concat, Option.mem_some_iff] at hu
      subst hu
      exact chgProcTitle_shown hs he hfits.2.2

/-- What stands away from the room is read as before. -/
theorem Kept.reads {n : Nat} {ss : List (List UInt8)} {ps : List Int} {m m' : Mem}
    (h : Kept base n ss ps m) (hout : ∀ a, a < base ∨ base + n ≤ a → m' a = m a) :
    Reads m' ps ss := by
  obtain ⟨xs, rfl, rfl, hxs⟩ := h
  unfold Reads
  rw [List.forall₂_map_left_iff, List.forall₂_map_right_iff, List.forall₂_same]
  intro x hx
  rcases hxs x hx with ⟨hin, hapart⟩
  refine hin.frame fun a hlo hhi => hout a ?_
  rcases hapart with hle | hle
  · simp only [StrAt.field] at hle
    omega
  · simp only [StrAt.field] at hle
    omega

/-- **Titles and the environment.** However a process was started, behind `save_args` and any
titles every write has been in its place exactly when each title is shorter than 128 bytes
and than the room; then the environment and the copies of the arguments are read as at the
start, and `ps` shows the last title. -/
theorem titles_keep_environ (hargs : args ≠ []) (hplain : ∀ s ∈ args ++ env, Plain max s)
    (hs : Started base args env s) (ha : Allocated base args env copies envNew)
    (ts : List (List UInt8)) :
    let n := room args env envNew
    let t := takeTitles ts (saveArgs max copies envNew s)
    (t.outside = false ↔ ∀ u ∈ ts, TitleFits n u) ∧
      (t.outside = false → Reads t.mem t.environ env ∧ Reads t.mem t.gArgv args ∧
        ∀ u ∈ ts.getLast?, bytes (t.mem.ptr base) n = u ++ List.replicate (n - u.length) 0) := by
  intro n t
  have hsaved := saveArgs_saved hargs hplain hs ha
  obtain ⟨hiff, hkept⟩ := takeTitles_spec hsaved.start hsaved.stop hsaved.inside ts
  refine ⟨hiff, fun hinside => ?_⟩
  obtain ⟨hout, hshown⟩ := hkept (hiff.mp hinside)
  obtain ⟨_, _, henviron, hgArgv⟩ := takeTitles_ptrs ts (saveArgs max copies envNew s)
  refine ⟨?_, ?_, hshown⟩
  · show Reads _ (takeTitles ts _).environ env
    rw [henviron]
    exact hsaved.environ.reads hout
  · show Reads _ (takeTitles ts _).gArgv args
    rw [hgArgv]
    exact hsaved.gArgv.reads hout

/-! ## The titles of the server -/

/-- A number of 32 bits takes at most eleven bytes. -/
theorem showInt_length {n : Int} (hlo : -2 ^ 31 ≤ n) (hhi : n < 2 ^ 31) :
    (Conf.showInt n).length ≤ 11 := by
  have hnat : (Conf.showNat n.natAbs).length ≤ 10 := by
    unfold Conf.showNat
    by_cases hzero : n.natAbs = 0
    · rw [if_pos hzero]
      decide
    · rw [if_neg hzero, List.length_reverse, List.length_map]
      exact (Nat.digits_length_le_iff (by decide) _).mpr (by omega)
  unfold Conf.showInt
  by_cases hneg : n < 0
  · rw [if_pos hneg, List.length_cons]
    omega
  · rw [if_neg hneg]
    omega

/-- **The server's own titles** have room in `title`, when `srv_name` ends in its 32 bytes: they
fit exactly when they are shorter than the room. -/
theorem titleFits_server {srvName : List UInt8} (hname : srvName.length < 32) (n : Nat)
    (id : UInt32) :
    (TitleFits n (masterTitle srvName) ↔ srvName.length < n) ∧
      (TitleFits n (workTitle srvName id) ↔ (workTitle srvName id).length < n) := by
  have hshow := showInt_length (Int32.le_toInt id.toInt32) (Int32.toInt_lt id.toInt32)
  unfold TitleFits masterTitle workTitle titleSize
  rw [List.length_append, List.length_cons]
  omega

/-- `./simple_svr`, with one variable in its environment. -/
def simpleSvr : ProcSt where
  mem a := ofBytes (Conf.ascii "./simple_svr" ++ 0 :: Conf.ascii "HOME=/root" ++ [0]) (a - 1000)
  argv := [1000]
  environ := [1013]
  gArgv := []
  argvStart := 0
  argvEnd := 0
  outside := false

/-- The master and its first worker have their titles. -/
theorem titles_keep_environ_simpleSvr :
    let t := takeTitles [masterTitle (Conf.ascii "online"), workTitle (Conf.ascii "online") 1]
      (saveArgs 100 [100] (some 200) simpleSvr)
    t.outside = false ∧ Reads t.mem t.environ [Conf.ascii "HOME=/root"] := by
  intro t
  have hs : Started 1000 [Conf.ascii "./simple_svr"] [Conf.ascii "HOME=/root"] simpleSvr :=
    ⟨by decide, by decide, by decide +kernel, rfl⟩
  have ha : Allocated 1000 [Conf.ascii "./simple_svr"] [Conf.ascii "HOME=/root"] [100]
      (some 200) := ⟨by decide, by decide, by decide⟩
  obtain ⟨hiff, hreads⟩ := @titles_keep_environ 100 _ _ _ _ _ _ (by decide) (by decide) hs ha
    [masterTitle (Conf.ascii "online"), workTitle (Conf.ascii "online") 1]
  have hinside : t.outside = false := by
    refine hiff.mpr fun u hu => ?_
    rcases List.mem_pair.mp hu with rfl | rfl
    · exact (titleFits_server (by decide) _ 1).1.mpr (by decide +kernel)
    · exact (titleFits_server (by decide) _ 1).2.mpr (by decide +kernel)
  exact ⟨hinside, (hreads hinside).1⟩

end SServer.Util
