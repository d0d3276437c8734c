import SServer.Lib.Run
import Mathlib.Data.List.Basic
import Mathlib.Data.List.Range

/-!
# SServer.Master.Supervise — the workers are children

`main` starts the workers one after another: `fork`, `master_listen`, and then
`chl_pids[i] = pid`. `handle_sigchld` may run between any two of these statements, as soon
as a child has exited; it looks the pid up in `chl_pids` and starts the worker again by
`start_work`, whose statements are the same three. While it runs SIGCHLD is blocked.

The result: every worker that exits is restarted, and between starts each index has a live
child, exactly when no child is reaped that `main` has forked and not yet recorded.

* `reap_cases`: a child is reaped, before its pid is recorded or behind that.
* `supStep_cases`: one step, on either side of the condition.
* `supervised_iff`: the result, in every interleaving of the start loop, exits and deliveries.
* `earlyExit_not_supervised`: a worker that fails at once: it is not restarted, and its dead pid
  is recorded.

`handle_sigchld` reaps one child after another, each by a step of its own, so that others may
exit meanwhile. What a start does besides these three statements is in `SServer.Table.Restart`.
-/

namespace SServer.Master

open SServer.Lib

/-! ## State -/

/-- A child process: the index it serves, and whether it still runs. -/
structure Child where
  pid : Nat
  idx : Nat
  alive : Bool
deriving DecidableEq

/-- The statement of a start that is next: `fork`, `master_listen`, or the store to
`chl_pids`. -/
inductive Start where
  | fork (i : Nat)
  | listen (i pid : Nat)
  | record (i pid : Nat)
deriving DecidableEq

/-- The index that is started. -/
def Start.idx : Start → Nat
  | .fork i => i
  | .listen i _ => i
  | .record i _ => i

/-- Where `handle_sigchld` stands: not running, at its `waitpid`, or in `start_work`. -/
inductive Handler where
  | off
  | reap
  | starts (st : Start)
deriving DecidableEq

/-- `chl_pids`, the children that have not been reaped, the start that `main` is at, and the
signal handler. -/
structure Sup where
  chl : Nat → Nat
  children : List Child
  main : Start
  handler : Handler

/-- `main` before its start loop. -/
def supInit : Sup := { chl := fun _ => 0, children := [], main := .fork 0, handler := .off }

/-! ## Steps -/

/-- The three statements of a start; a child exits; SIGCHLD is delivered; `waitpid` returns
a pid, or none. -/
inductive SupLbl where
  | fork (pid : Nat)
  | listen
  | record
  | exit (pid : Nat)
  | sigchld
  | reap (pid : Nat)
  | ret

/-- The start whose statements run: that of the handler, or of `main` outside of it. -/
def Sup.running (s : Sup) : Option Start :=
  match s.handler with
  | .off => some s.main
  | .reap => none
  | .starts st => some st

/-- The start goes on at `st`. -/
def Sup.goTo (s : Sup) (st : Start) : Sup :=
  match s.handler with
  | .off => { s with main := st }
  | _ => { s with handler := .starts st }

/-- The start of `i` has ended: the next index of the loop, or the next `waitpid`. -/
def Sup.finish (s : Sup) (i : Nat) : Sup :=
  match s.handler with
  | .off => { s with main := .fork (i + 1) }
  | _ => { s with handler := .reap }

/-- A pid that `fork` may return. -/
def Fresh (pid : Nat) (children : List Child) : Prop := pid ≠ 0 ∧ ∀ c ∈ children, c.pid ≠ pid

instance (pid : Nat) (children : List Child) : Decidable (Fresh pid children) :=
  inferInstanceAs (Decidable (_ ∧ _))

/-- The search of `handle_sigchld`: the first index below `nr_used` with this pid. -/
def findChl (nrUsed : Nat) (chl : Nat → Nat) (pid : Nat) : Option Nat :=
  (List.range nrUsed).find? fun i => chl i = pid

variable (nrUsed : Nat)

/-- What `handle_sigchld` does with a pid that `waitpid` has returned. -/
def Sup.reaped (s : Sup) (pid : Nat) : Sup :=
  let s := { s with children := s.children.filter fun c => c.pid ≠ pid }
  match findChl nrUsed s.chl pid with
  | none => s
  | some i => { s with chl := Function.update s.chl i 0, handler := .starts (.fork i) }

/-- One step. -/
def supStep : SupLbl → Sup → Option Sup
  | .fork pid, s =>
    match s.running with
    | some (.fork i) =>
      if i < nrUsed ∧ Fresh pid s.children then
        some ({ s with children := ⟨pid, i, true⟩ :: s.children }.goTo (.listen i pid))
      else none
    | _ => none
  | .listen, s =>
    match s.running with
    | some (.listen i pid) => some (s.goTo (.record i pid))
    | _ => none
  | .record, s =>
    match s.running with
    | some (.record i pid) => some ({ s with chl := Function.update s.chl i pid }.finish i)
    | _ => none
  | .exit pid, s =>
    if ∃ c ∈ s.children, c.pid = pid ∧ c.alive = true then
      some
        { s with children := s.children.map fun c =>
            if c.pid = pid then { c with alive := false } else c }
    else none
  | .sigchld, s => if s.handler = .off then some { s with handler := .reap } else none
  | .reap pid, s =>
    if s.handler = .reap ∧ ∃ c ∈ s.children, c.pid = pid ∧ c.alive = false then
      some (s.reaped nrUsed pid)
    else none
  | .ret, s =>
    if s.handler = .reap ∧ ∀ c ∈ s.children, c.alive = true then
      some { s with handler := .off }
    else none

/-! ## What is to hold -/

/-- The child `pid` serves `i`. -/
def Sup.Serves (s : Sup) (pid i : Nat) : Prop := ∃ c ∈ s.children, c.pid = pid ∧ c.idx = i

/-- No start or restart is in progress, and no exited child is left unreaped. -/
def Quiet (s : Sup) : Prop :=
  s.main = .fork s.main.idx ∧ (s.handler = .off ∨ s.handler = .reap) ∧
    ∀ c ∈ s.children, c.alive = true

/-- What is to hold of a state: if it is quiet, `chl_pids` has for each index that was
started a live child that serves it. -/
def Supervised (s : Sup) : Prop :=
  Quiet s → ∀ i, i < s.main.idx → ∃ c ∈ s.children, c.pid = s.chl i ∧ c.idx = i ∧ c.alive = true

/-- What is to hold of a step: the index of a child that is reaped is started again. -/
def Restarts : SupLbl → Sup → Prop
  | .reap pid, s => ∀ i, s.Serves pid i → (s.reaped nrUsed pid).handler = .starts (.fork i)
  | _, _ => True

/-- The start has forked the child `pid` for `i`, and not recorded it. -/
def Start.Has (st : Start) (i pid : Nat) : Prop := st = .listen i pid ∨ st = .record i pid

/-- The condition: a child that is reaped is not one that `main` has yet to record. -/
def Recorded : SupLbl → Sup → Prop
  | .reap pid, s => ∀ i, ¬ s.main.Has i pid
  | _, _ => True

/-- The invariant, of the pids and the indices they serve, of `chl_pids`, and of the two
starts: each child is recorded for its index, or the start that forked it is not at its
end; what is recorded is a child; and an index without a record is being restarted. -/
structure Books (serves : Nat → Nat → Prop) (chl : Nat → Nat) (main : Start) (handler : Handler) :
    Prop where
  pid_pos : ∀ i, ¬ serves 0 i
  functional : ∀ pid i j, serves pid i → serves pid j → i = j
  recorded : ∀ i, chl i ≠ 0 → i < main.idx ∧ serves (chl i) i
  starting : ∀ i pid, main.Has i pid → i < nrUsed ∧ serves pid i
  bound : main.idx ≤ nrUsed
  restarting : ∀ st, handler = .starts st →
    st.idx < main.idx ∧ chl st.idx = 0 ∧ ∀ i pid, st.Has i pid → serves pid i
  owned : ∀ pid i, serves pid i →
    chl i = pid ∨ main.Has i pid ∨ ∃ st, handler = .starts st ∧ st.Has i pid
  complete : ∀ i, i < main.idx → chl i = 0 → ∃ st, handler = .starts st ∧ st.idx = i

/-- The invariant of a state. -/
def SupInv (s : Sup) : Prop := Books nrUsed s.Serves s.chl s.main s.handler

/-- Nobody is started yet. -/
theorem supInit_inv : SupInv nrUsed supInit := by
  have hnone : ∀ pid i, ¬ supInit.Serves pid i := by
    rintro pid i ⟨c, hc, _⟩
    cases hc
  refine ⟨fun i => hnone 0 i, fun pid i j h => absurd h (hnone pid i), fun i h => absurd rfl h,
    fun i pid h => ?_, Nat.zero_le _, fun st h => ?_, fun pid i h => absurd h (hnone pid i),
    fun i h => absurd h (Nat.not_lt_zero i)⟩
  · rcases h with h | h <;> cases h
  · cases h

/-- In a quiet state the records are of live children. -/
theorem SupInv.supervised {s : Sup} (h : SupInv nrUsed s) : Supervised s := by
  rintro ⟨_, hhandler, halive⟩ i hi
  have hne : s.chl i ≠ 0 := by
    intro hzero
    obtain ⟨st, hst, _⟩ := h.complete i hi hzero
    rcases hhandler with hoff | hreap
    · cases hoff.symm.trans hst
    · cases hreap.symm.trans hst
  obtain ⟨_, c, hc, hpid, hidx⟩ := h.recorded i hne
  exact ⟨c, hc, hpid, hidx, halive c hc⟩

/-! ## Who serves what -/

/-- Before its `fork` a start has no pid. -/
@[simp] theorem has_fork (i j pid : Nat) : (Start.fork i).Has j pid ↔ False := by
  simp [Start.Has]

/-- Behind it, it has the one that `fork` returned. -/
@[simp] theorem has_listen (i pid j p : Nat) :
    (Start.listen i pid).Has j p ↔ i = j ∧ pid = p := by
  simp [Start.Has]

/-- And up to the store. -/
@[simp] theorem has_record (i pid j p : Nat) :
    (Start.record i pid).Has j p ↔ i = j ∧ pid = p := by
  simp [Start.Has]

/-- The pid is for the index of the start. -/
theorem has_idx {st : Start} {i pid : Nat} (h : st.Has i pid) : st.idx = i := by
  rcases h with rfl | rfl
  · rfl
  · rfl

/-- A new child serves its index. -/
theorem serves_cons {s t : Sup} {pid i : Nat} (h : t.children = ⟨pid, i, true⟩ :: s.children) :
    t.Serves = fun p j => p = pid ∧ j = i ∨ s.Serves p j := by
  funext p j
  unfold Sup.Serves
  rw [h]
  apply propext
  constructor
  · rintro ⟨c, hc, hpid, hidx⟩
    rcases List.mem_cons.mp hc with rfl | hold
    · exact Or.inl ⟨hpid.symm, hidx.symm⟩
    · exact Or.inr ⟨c, hold, hpid, hidx⟩
  · rintro (⟨rfl, rfl⟩ | ⟨c, hc, hserves⟩)
    · exact ⟨_, List.mem_cons_self, rfl, rfl⟩
    · exact ⟨c, List.mem_cons_of_mem _ hc, hserves⟩

/-- An exit changes nothing about who serves what. -/
theorem serves_exit {s t : Sup} {pid : Nat} (h : t.children = s.children.map fun c =>
      if c.pid = pid then { c with alive := false } else c) : t.Serves = s.Serves := by
  funext p j
  unfold Sup.Serves
  rw [h]
  apply propext
  have hsame : ∀ c : Child, (if c.pid = pid then { c with alive := false } else c).pid = c.pid ∧
      (if c.pid = pid then { c with alive := false } else c).idx = c.idx := by
    intro c
    by_cases hc : c.pid = pid
    · rw [if_pos hc]
      exact ⟨rfl, rfl⟩
    · rw [if_neg hc]
      exact ⟨rfl, rfl⟩
  constructor
  · rintro ⟨c', hc', hpid, hidx⟩
    obtain ⟨c, hc, rfl⟩ := List.mem_map.mp hc'
    exact ⟨c, hc, (hsame c).1.symm.trans hpid, (hsame c).2.symm.trans hidx⟩
  · rintro ⟨c, hc, hpid, hidx⟩
    exact ⟨_, List.mem_map_of_mem hc, (hsame c).1.trans hpid, (hsame c).2.trans hidx⟩

/-- A child that is reaped serves no more. -/
theorem serves_filter {s t : Sup} {pid : Nat}
    (h : t.children = s.children.filter fun c => c.pid ≠ pid) :
    t.Serves = fun p j => p ≠ pid ∧ s.Serves p j := by
  funext p j
  unfold Sup.Serves
  rw [h]
  apply propext
  constructor
  · rintro ⟨c, hc, hpid, hidx⟩
    obtain ⟨hold, hne⟩ := List.mem_filter.mp hc
    rw [decide_eq_true_eq, hpid] at hne
    exact ⟨hne, c, hold, hpid, hidx⟩
  · rintro ⟨hne, c, hc, hpid, hidx⟩
    refine ⟨c, List.mem_filter.mpr ⟨hc, ?_⟩, hpid, hidx⟩
    rw [decide_eq_true_eq, hpid]
    exact hne

/-- A pid that `fork` may return is nobody's. -/
theorem Fresh.not_serves {s : Sup} {pid : Nat} (h : Fresh pid s.children) (i : Nat) :
    ¬ s.Serves pid i := by
  rintro ⟨c, hc, hpid, _⟩
  exact h.2 c hc hpid

/-! ## Steps of a start -/

section Books

variable {nrUsed : Nat} {serves : Nat → Nat → Prop} {chl : Nat → Nat} {main : Start}
  {handler : Handler}

/-- No child has the pid zero. -/
theorem Books.pid_ne_zero (h : Books nrUsed serves chl main handler) {pid i : Nat}
    (hserves : serves pid i) : pid ≠ 0 := by
  rintro rfl
  exact h.pid_pos i hserves

/-- A record of a child is not empty. -/
theorem Books.chl_ne_zero (h : Books nrUsed serves chl main handler) {pid i : Nat}
    (hserves : serves pid i) {j : Nat} (hchl : chl j = pid) : chl j ≠ 0 := by
  rw [hchl]
  exact h.pid_ne_zero hserves

/-- A handler that is in no start. -/
theorem Books.idle (h : Books nrUsed serves chl main handler) (hidle : ∀ st, handler ≠ .starts st)
    {handler' : Handler} (hidle' : ∀ st, handler' ≠ .starts st) :
    Books nrUsed serves chl main handler' := by
  refine ⟨h.pid_pos, h.functional, h.recorded, h.starting, h.bound, fun st hst => ?_,
    fun pid i hserves => ?_, fun i hi hzero => ?_⟩
  · exact absurd hst (hidle' st)
  · rcases h.owned pid i hserves with hchl | hmain | ⟨st, hst, _⟩
    · exact Or.inl hchl
    · exact Or.inr (Or.inl hmain)
    · exact absurd hst (hidle st)
  · obtain ⟨st, hst, _⟩ := h.complete i hi hzero
    exact absurd hst (hidle st)

/-- The pids with a fresh one: none is zero. -/
theorem Books.pid_pos_add (h : Books nrUsed serves chl main handler) {i pid : Nat} (hpos : pid ≠ 0)
    (j : Nat) : ¬ (0 = pid ∧ j = i ∨ serves 0 j) := by
  rintro (⟨hzero, _⟩ | hold)
  · exact hpos hzero.symm
  · exact h.pid_pos j hold

/-- The pids with a fresh one: each serves one index. -/
theorem Books.functional_add (h : Books nrUsed serves chl main handler) {i pid : Nat}
    (hfresh : ∀ j, ¬ serves pid j) (p j k : Nat) (hj : p = pid ∧ j = i ∨ serves p j)
    (hk : p = pid ∧ k = i ∨ serves p k) : j = k := by
  rcases hj with ⟨rfl, rfl⟩ | hj
  · rcases hk with ⟨_, rfl⟩ | hk
    · rfl
    · exact absurd hk (hfresh k)
  · rcases hk with ⟨rfl, _⟩ | hk
    · exact absurd hj (hfresh j)
    · exact h.functional p j k hj hk

/-- `fork` in `main`. -/
theorem Books.forkMain {i : Nat} (h : Books nrUsed serves chl (.fork i) .off) (hi : i < nrUsed)
    {pid : Nat} (hpos : pid ≠ 0) (hfresh : ∀ j, ¬ serves pid j) :
    Books nrUsed (fun p j => p = pid ∧ j = i ∨ serves p j) chl (.listen i pid) .off := by
  constructor
  · exact h.pid_pos_add hpos
  · exact h.functional_add hfresh
  · intro j hne
    obtain ⟨hlt, hserves⟩ := h.recorded j hne
    exact ⟨hlt, Or.inr hserves⟩
  · intro j p hhas
    obtain ⟨rfl, rfl⟩ := (has_listen i pid j p).mp hhas
    exact ⟨hi, Or.inl ⟨rfl, rfl⟩⟩
  · exact h.bound
  · intro st hst
    cases hst
  · rintro p j (⟨rfl, rfl⟩ | hold)
    · exact Or.inr (Or.inl (Or.inl rfl))
    · rcases h.owned p j hold with hchl | hmain | ⟨st, hst, _⟩
      · exact Or.inl hchl
      · exact absurd hmain (by simp)
      · cases hst
  · exact h.complete

/-- `fork` in `start_work`. -/
theorem Books.forkHandler {i : Nat} (h : Books nrUsed serves chl main (.starts (.fork i)))
    {pid : Nat} (hpos : pid ≠ 0) (hfresh : ∀ j, ¬ serves pid j) :
    Books nrUsed (fun p j => p = pid ∧ j = i ∨ serves p j) chl main (.starts (.listen i pid)) := by
  obtain ⟨hlt, hzero, _⟩ := h.restarting _ rfl
  constructor
  · exact h.pid_pos_add hpos
  · exact h.functional_add hfresh
  · intro j hne
    obtain ⟨hlt, hserves⟩ := h.recorded j hne
    exact ⟨hlt, Or.inr hserves⟩
  · intro j p hhas
    obtain ⟨hj, hserves⟩ := h.starting j p hhas
    exact ⟨hj, Or.inr hserves⟩
  · exact h.bound
  · rintro st ⟨⟩
    refine ⟨hlt, hzero, fun j p hhas => ?_⟩
    obtain ⟨rfl, rfl⟩ := (has_listen i pid j p).mp hhas
    exact Or.inl ⟨rfl, rfl⟩
  · rintro p j (⟨rfl, rfl⟩ | hold)
    · exact Or.inr (Or.inr ⟨_, rfl, Or.inl rfl⟩)
    · rcases h.owned p j hold with hchl | hmain | ⟨st, hst, hhas⟩
      · exact Or.inl hchl
      · exact Or.inr (Or.inl hmain)
      · cases hst
        exact absurd hhas (by simp)
  · intro j hj hzero
    obtain ⟨st, hst, hidx⟩ := h.complete j hj hzero
    cases hst
    exact ⟨_, rfl, hidx⟩

/-- The start of `main` at another statement. -/
theorem Books.congrMain (h : Books nrUsed serves chl main handler) {main' : Start}
    (hidx : main'.idx = main.idx) (hhas : ∀ i pid, main'.Has i pid ↔ main.Has i pid) :
    Books nrUsed serves chl main' handler := by
  constructor
  · exact h.pid_pos
  · exact h.functional
  · rw [hidx]
    exact h.recorded
  · simp only [hhas]
    exact h.starting
  · rw [hidx]
    exact h.bound
  · rw [hidx]
    exact h.restarting
  · simp only [hhas]
    exact h.owned
  · rw [hidx]
    exact h.complete

/-- The start of `start_work` at another statement. -/
theorem Books.congrHandler {st st' : Start} (h : Books nrUsed serves chl main (.starts st))
    (hidx : st'.idx = st.idx) (hhas : ∀ i pid, st'.Has i pid ↔ st.Has i pid) :
    Books nrUsed serves chl main (.starts st') := by
  obtain ⟨hlt, hzero, hserves⟩ := h.restarting st rfl
  refine ⟨h.pid_pos, h.functional, h.recorded, h.starting, h.bound, ?_, fun pid i hpid => ?_,
    fun i hi hnone => ?_⟩
  · rintro _ ⟨⟩
    rw [hidx]
    exact ⟨hlt, hzero, fun i pid hst => hserves i pid ((hhas i pid).mp hst)⟩
  · rcases h.owned pid i hpid with hchl | hmain | ⟨_, ⟨⟩, hst⟩
    · exact Or.inl hchl
    · exact Or.inr (Or.inl hmain)
    · exact Or.inr (Or.inr ⟨st', rfl, (hhas i pid).mpr hst⟩)
  · obtain ⟨_, ⟨⟩, hst⟩ := h.complete i hi hnone
    exact ⟨st', rfl, hidx.trans hst⟩

/-- The store to `chl_pids` in `main`. -/
theorem Books.recordMain {i pid : Nat} (h : Books nrUsed serves chl (.record i pid) .off) :
    Books nrUsed serves (Function.update chl i pid) (.fork (i + 1)) .off := by
  obtain ⟨hi, hserves⟩ := h.starting i pid (Or.inr rfl)
  have hpos := h.pid_ne_zero hserves
  -- the indices before `i` have their records
  have hbefore : ∀ j, chl j ≠ 0 → j ≠ i := fun j hne => Nat.ne_of_lt (h.recorded j hne).1
  constructor
  · exact h.pid_pos
  · exact h.functional
  · intro j hne
    by_cases hj : j = i
    · rw [hj, Function.update_self]
      exact ⟨Nat.lt_succ_self i, hserves⟩
    · rw [Function.update_of_ne hj] at hne ⊢
      obtain ⟨hlt, hold⟩ := h.recorded j hne
      exact ⟨Nat.lt_succ_of_lt hlt, hold⟩
  · intro j p hhas
    exact absurd hhas (by simp)
  · exact hi
  · intro st hst
    cases hst
  · intro p j hp
    left
    rcases h.owned p j hp with hchl | hmain | ⟨st, hst, _⟩
    · rw [Function.update_of_ne (hbefore j (h.chl_ne_zero hp hchl)), hchl]
    · obtain ⟨rfl, rfl⟩ := (has_record i pid j p).mp hmain
      exact Function.update_self _ _ _
    · cases hst
  · intro j hj hzero
    by_cases hij : j = i
    · rw [hij, Function.update_self] at hzero
      exact absurd hzero hpos
    · rw [Function.update_of_ne hij] at hzero
      have hlt : j < i := by
        have hle : j < i + 1 := hj
        omega
      exact h.complete j hlt hzero

/-- The store to `chl_pids` in `start_work`. -/
theorem Books.recordHandler {i pid : Nat}
    (h : Books nrUsed serves chl main (.starts (.record i pid))) :
    Books nrUsed serves (Function.update chl i pid) main .reap := by
  obtain ⟨hlt, hzero, hhas⟩ := h.restarting _ rfl
  have hserves : serves pid i := hhas i pid (Or.inr rfl)
  have hpos := h.pid_ne_zero hserves
  constructor
  · exact h.pid_pos
  · exact h.functional
  · intro j hne
    by_cases hj : j = i
    · rw [hj, Function.update_self]
      exact ⟨hlt, hserves⟩
    · rw [Function.update_of_ne hj] at hne ⊢
      exact h.recorded j hne
  · exact h.starting
  · exact h.bound
  · intro st hst
    cases hst
  · intro p j hp
    rcases h.owned p j hp with hchl | hmain | ⟨_, ⟨⟩, hst⟩
    · left
      have hj : j ≠ i := by
        rintro rfl
        exact h.chl_ne_zero hp hchl hzero
      rw [Function.update_of_ne hj, hchl]
    · exact Or.inr (Or.inl hmain)
    · obtain ⟨rfl, rfl⟩ := (has_record i pid j p).mp hst
      exact Or.inl (Function.update_self _ _ _)
  · intro j hj hnone
    by_cases hij : j = i
    · rw [hij, Function.update_self] at hnone
      exact absurd hnone hpos
    · rw [Function.update_of_ne hij] at hnone
      obtain ⟨_, ⟨⟩, hidx⟩ := h.complete j hj hnone
      exact absurd hidx.symm hij

/-- A child that is reaped and was recorded. -/
theorem Books.reap (h : Books nrUsed serves chl main .reap) {pid i : Nat} (hserves : serves pid i)
    (hchl : chl i = pid) (hmain : ∀ j, ¬ main.Has j pid) :
    Books nrUsed (fun p j => p ≠ pid ∧ serves p j) (Function.update chl i 0) main
      (.starts (.fork i)) := by
  have hne := h.chl_ne_zero hserves hchl
  constructor
  · intro j hj
    exact h.pid_pos j hj.2
  · -- one number of a worker for each process
    intro p j k hj hk
    exact h.functional p j k hj.2 hk.2
  · intro j hj
    have hij : j ≠ i := by
      rintro rfl
      exact hj (Function.update_self _ _ _)
    rw [Function.update_of_ne hij] at hj ⊢
    obtain ⟨hlt, hold⟩ := h.recorded j hj
    refine ⟨hlt, fun heq => hij ?_, hold⟩
    exact h.functional pid j i (heq ▸ hold) hserves
  · intro j p hhas
    obtain ⟨hj, hold⟩ := h.starting j p hhas
    exact ⟨hj, fun heq => hmain j (heq ▸ hhas), hold⟩
  · exact h.bound
  · rintro _ ⟨⟩
    refine ⟨(h.recorded i hne).1, Function.update_self _ _ _, fun j p hhas => ?_⟩
    exact absurd hhas (by simp)
  · -- what is left has another pid than the one that was reaped
    rintro p j ⟨hp, hold⟩
    rcases h.owned p j hold with hj | hhas | ⟨st, hst, _⟩
    · left
      have hij : j ≠ i := by
        rintro rfl
        exact hp (hj.symm.trans hchl)
      rw [Function.update_of_ne hij, hj]
    · exact Or.inr (Or.inl hhas)
    · cases hst
  · -- the slot made empty is the one that `start_work` is called for
    intro j hj hzero
    by_cases hij : j = i
    · exact ⟨_, rfl, hij.symm⟩
    · rw [Function.update_of_ne hij] at hzero
      obtain ⟨st, hst, _⟩ := h.complete j hj hzero
      cases hst

end Books

/-! ## One step -/

/-- `fork` keeps the invariant. -/
theorem fork_inv {s t : Sup} {pid : Nat} (h : SupInv nrUsed s)
    (hstep : supStep nrUsed (.fork pid) s = some t) : SupInv nrUsed t := by
  obtain ⟨chl, children, main, handler⟩ := s
  unfold SupInv at h ⊢
  cases handler with
  | reap => cases hstep
  | off =>
    cases main with
    | listen i p => cases hstep
    | record i p => cases hstep
    | fork i =>
      obtain ⟨⟨hi, hfresh⟩, hres⟩ := Option.ite_none_right_eq_some.mp hstep
      cases hres
      rw [serves_cons (s := ⟨chl, children, .fork i, .off⟩) rfl]
      exact h.forkMain hi hfresh.1 (Fresh.not_serves hfresh)
  | starts st =>
    cases st with
    | listen i p => cases hstep
    | record i p => cases hstep
    | fork i =>
      obtain ⟨⟨_, hfresh⟩, hres⟩ := Option.ite_none_right_eq_some.mp hstep
      cases hres
      rw [serves_cons (s := ⟨chl, children, main, .starts (.fork i)⟩) rfl]
      exact h.forkHandler hfresh.1 (Fresh.not_serves hfresh)

/-- `master_listen` keeps the invariant. -/
theorem listen_inv {s t : Sup} (h : SupInv nrUsed s)
    (hstep : supStep nrUsed .listen s = some t) : SupInv nrUsed t := by
  obtain ⟨chl, children, main, handler⟩ := s
  unfold SupInv at h ⊢
  cases handler with
  | reap => cases hstep
  | off =>
    cases main with
    | fork i => cases hstep
    | record i p => cases hstep
    | listen i p =>
      cases hstep
      show Books nrUsed (Sup.Serves ⟨chl, children, .record i p, .off⟩) chl (.record i p) .off
      exact Books.congrMain h rfl (by simp)
  | starts st =>
    cases st with
    | fork i => cases hstep
    | record i p => cases hstep
    | listen i p =>
      cases hstep
      exact h.congrHandler rfl (by simp)

/-- The store to `chl_pids` keeps the invariant. -/
theorem record_inv {s t : Sup} (h : SupInv nrUsed s)
    (hstep : supStep nrUsed .record s = some t) : SupInv nrUsed t := by
  obtain ⟨chl, children, main, handler⟩ := s
  unfold SupInv at h ⊢
  cases handler with
  | reap => cases hstep
  | off =>
    cases main with
    | fork i => cases hstep
    | listen i p => cases hstep
    | record i p =>
      cases hstep
      exact h.recordMain
  | starts st =>
    cases st with
    | fork i => cases hstep
    | listen i p => cases hstep
    | record i p =>
      cases hstep
      exact h.recordHandler

/-- The search finds the index of a recorded child. -/
theorem findChl_recorded {s : Sup} (h : SupInv nrUsed s) {pid i : Nat} (hserves : s.Serves pid i)
    (hchl : s.chl i = pid) : findChl nrUsed s.chl pid = some i := by
  have hne := h.chl_ne_zero hserves hchl
  have hlt : i < nrUsed := Nat.lt_of_lt_of_le (h.recorded i hne).1 h.bound
  cases hfind : findChl nrUsed s.chl pid with
  | none =>
    have hno := List.find?_eq_none.mp hfind i (List.mem_range.mpr hlt)
    exact absurd hchl (by simpa using hno)
  | some j =>
    -- what is found serves the index it is recorded for
    have hj : s.chl j = pid := by simpa using List.find?_some hfind
    have hold := (h.recorded j (h.chl_ne_zero hserves hj)).2
    rw [hj] at hold
    rw [h.functional pid j i hold hserves]

/-- It finds nothing for a child that `main` has yet to record. -/
theorem findChl_pending {s : Sup} (h : SupInv nrUsed s) {pid i : Nat} (hmain : s.main.Has i pid) :
    findChl nrUsed s.chl pid = none := by
  have hserves := (h.starting i pid hmain).2
  cases hfind : findChl nrUsed s.chl pid with
  | none => rfl
  | some j =>
    have hj : s.chl j = pid := by simpa using List.find?_some hfind
    obtain ⟨hlt, hold⟩ := h.recorded j (h.chl_ne_zero hserves hj)
    rw [hj] at hold
    have hji := h.functional pid j i hold hserves
    rw [hji, has_idx hmain] at hlt
    exact absurd hlt (Nat.lt_irrefl i)

/-- **Reaping**, on either side of the condition. -/
theorem reap_cases {s t : Sup} {pid : Nat} (h : SupInv nrUsed s)
    (hstep : supStep nrUsed (.reap pid) s = some t) :
    Recorded (.reap pid) s ∧ Restarts nrUsed (.reap pid) s ∧ SupInv nrUsed t ∨
      ¬ Recorded (.reap pid) s ∧ ¬ Restarts nrUsed (.reap pid) s := by
  obtain ⟨⟨hreap, c, hc, hpid, _⟩, hres⟩ := Option.ite_none_right_eq_some.mp hstep
  cases hres
  have hserves : s.Serves pid c.idx := ⟨c, hc, hpid, rfl⟩
  by_cases hrec : ∀ i, ¬ s.main.Has i pid
  · have hchl : s.chl c.idx = pid := by
      rcases h.owned pid c.idx hserves with hchl | hmain | ⟨st, hst, _⟩
      · exact hchl
      · exact absurd hmain (hrec c.idx)
      · cases hreap.symm.trans hst
    have hfound := findChl_recorded nrUsed h hserves hchl
    have hnew : s.reaped nrUsed pid =
        { s with children := s.children.filter fun c => c.pid ≠ pid
                 chl := Function.update s.chl c.idx 0
                 handler := .starts (.fork c.idx) } := by
      unfold Sup.reaped
      simp only [hfound]
    refine Or.inl ⟨hrec, fun i hi => ?_, ?_⟩
    · rw [hnew, h.functional pid i c.idx hi hserves]
    · unfold SupInv at h ⊢
      rw [hreap] at h
      rw [hnew, serves_filter (s := s) rfl]
      exact h.reap hserves hchl hrec
  · refine Or.inr ⟨hrec, fun hrestarts => ?_⟩
    obtain ⟨i, hmain⟩ := not_forall_not.mp hrec
    have hnone := findChl_pending nrUsed h hmain
    have hnew : (s.reaped nrUsed pid).handler = s.handler := by
      unfold Sup.reaped
      simp only [hnone]
    have hst := hrestarts i (h.starting i pid hmain).2
    rw [hnew, hreap] at hst
    cases hst

/-- **One step**, on either side of the condition. -/
theorem supStep_cases (l : SupLbl) (s t : Sup) (h : SupInv nrUsed s)
    (hstep : supStep nrUsed l s = some t) :
    Recorded l s ∧ Restarts nrUsed l s ∧ SupInv nrUsed t ∨
      ¬ Recorded l s ∧ ¬ (Restarts nrUsed l s ∧ Supervised t) := by
  cases l with
  | fork pid => exact Or.inl ⟨trivial, trivial, fork_inv nrUsed h hstep⟩
  | listen => exact Or.inl ⟨trivial, trivial, listen_inv nrUsed h hstep⟩
  | record => exact Or.inl ⟨trivial, trivial, record_inv nrUsed h hstep⟩
  | exit pid =>
    obtain ⟨_, hres⟩ := Option.ite_none_right_eq_some.mp hstep
    cases hres
    refine Or.inl ⟨trivial, trivial, ?_⟩
    unfold SupInv at h ⊢
    rw [serves_exit (s := s) rfl]
    exact h
  | sigchld =>
    obtain ⟨hoff, hres⟩ := Option.ite_none_right_eq_some.mp hstep
    cases hres
    refine Or.inl ⟨trivial, trivial, Books.idle h (fun st hst => ?_) fun st hst => ?_⟩
    · cases hoff.symm.trans hst
    · cases hst
  | reap pid =>
    refine (reap_cases nrUsed h hstep).imp_right fun hbad => ⟨hbad.1, fun hboth => ?_⟩
    exact hbad.2 hboth.1
  | ret =>
    obtain ⟨⟨hreap, _⟩, hres⟩ := Option.ite_none_right_eq_some.mp hstep
    cases hres
    refine Or.inl ⟨trivial, trivial, Books.idle h (fun st hst => ?_) fun st hst => ?_⟩
    · cases hreap.symm.trans hst
    · cases hst

/-! ## Runs -/

/-- **Supervision** holds exactly if no child is reaped too early: in every interleaving of
the statements of the start loop, exits and signal deliveries, each child that is reaped
leads to a restart of its index, and in each quiet state `chl_pids` has for every started
index a live child that serves it, if and only if no child is reaped that `main` has
forked and not yet recorded. -/
theorem supervised_iff (ls : List SupLbl) :
    (Throughout (supStep nrUsed) Supervised ls supInit ∧
        Along (supStep nrUsed) (Restarts nrUsed) ls supInit) ↔
      Along (supStep nrUsed) Recorded ls supInit :=
  throughout_and_along_iff (SupInv nrUsed) (fun _ h => h.supervised) (supStep_cases nrUsed)
    (supInit_inv nrUsed)

/-- The child of the first worker exits, and is reaped, before `main` has recorded it. -/
def earlyExit : List SupLbl :=
  [.fork 100, .exit 100, .sigchld, .reap 100, .ret, .listen, .record]

/-- A worker that fails at once is not restarted, and its dead pid is recorded. -/
theorem earlyExit_not_supervised :
    ¬ Along (supStep 1) (Restarts 1) earlyExit supInit ∧
      ¬ Throughout (supStep 1) Supervised earlyExit supInit := by
  constructor
  · intro halong
    have hrestarts := (((halong _ rfl).2 _ rfl).2 _ rfl).2 _ rfl
    have hstarts := hrestarts.1 0 ⟨⟨100, 0, false⟩, List.mem_cons_self, rfl, rfl⟩
    cases hstarts
  · intro hthrough
    -- in the last state nothing is in progress, and there is no child
    have hlast := (((((((hthrough.2 _ rfl).2 _ rfl).2 _ rfl).2 _ rfl).2 _ rfl).2 _ rfl).2 _ rfl)
    obtain ⟨c, hc, _⟩ := hlast ⟨rfl, Or.inl rfl, by decide⟩ 0 (by decide)
    cases hc

end SServer.Master
