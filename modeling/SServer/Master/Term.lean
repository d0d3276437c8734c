import SServer.Master.Supervise

/-!
# SServer.Master.Term — the end of the workers

`handle_term` goes through `chl_pids` when the master is told to end: it takes each record
away, and then sends the signal to the pid that is recorded, which is zero by then. The
signal may arrive anywhere, in a start or while SIGCHLD is handled, and `handle_sigchld`
may run between two passes of the loop. `start_work` may give up before its store to
`chl_pids`; a start of `main` that gives up ends the process, and a run may end anywhere.

The result: the signal is sent to the live children and to nobody else, and no child that
exits from then on is restarted, exactly when there is no record and no live child at that
time, and no start that was in progress then records a child that exits.

* `Apart.step`: a start or a child keeps the pid of the master apart from those of the children.
* `termStep_cases`: one step, on either side of its condition.
* `term_iff`: the result, over every run with signals nested in any way.
* `term_iff_restartFailed`: a run that meets the condition: the only worker has exited, and its
  restart has failed.
* `oneTold_not_tells`: a run that does not: a worker is up, and the signal goes to pid zero,
  that is, to the master as well.

What a process does with the signal it is sent is not modelled: a child exits by a step of its
own, whenever it likes. The master's own loop ends by `stop`, which nothing here reads.
-/

namespace SServer.Master

open SServer.Lib

/-! ## State -/

/-- A `handle_term` in progress: the index of its loop, and who has been sent the signal. -/
structure Handling where
  i : Nat
  sent : List Nat

/-- The children, their records and the starts; the handlings in progress, the innermost
first; whether one has ended; the indices that were recorded since a signal, and the
children that have exited since one was handled. -/
structure TermSt where
  sup : Sup
  term : List Handling
  told : Bool
  late : Nat → Bool
  exited : List Nat

/-- `main` before its start loop. -/
def termInit : TermSt :=
  { sup := supInit, term := [], told := false, late := fun _ => false, exited := [] }

/-! ## Steps -/

/-- A step of the starts, of a child or of `handle_sigchld`; `start_work` gives up; a signal
arrives; a pass of the loop of `handle_term`; and its end. -/
inductive TermLbl where
  | sup (l : SupLbl)
  | giveUp
  | signal
  | pass
  | leave

/-- Who gets a signal from `kill`. Zero stands for the process group, which the master has
from `daemon`, and its children from the master. -/
def kill (own : Nat) (children : List Child) (pid : Nat) : List Nat :=
  if pid = 0 then own :: (children.filter (·.alive)).map (·.pid) else [pid]

/-- `main` stands still under a handler, and no child gets the pid of the master. -/
def Permitted (own : Nat) (s : TermSt) : SupLbl → Prop
  | .fork pid => pid ≠ own ∧ (s.term = [] ∨ s.sup.handler ≠ .off)
  | .listen => s.term = [] ∨ s.sup.handler ≠ .off
  | .record => s.term = [] ∨ s.sup.handler ≠ .off
  | _ => True

/-- The indices that were recorded since a signal, behind a step. -/
def TermSt.lateAfter (s : TermSt) : SupLbl → Nat → Bool
  | .record =>
    match s.sup.running with
    | some (.record i _) => Function.update s.late i (s.told || !s.term.isEmpty)
    | _ => s.late
  | _ => s.late

/-- The children that have exited since a signal was handled, behind a step. -/
def TermSt.exitedAfter (s : TermSt) : SupLbl → List Nat
  | .exit pid => if s.told then pid :: s.exited else s.exited
  | _ => s.exited

/-- A pass of the loop at `i`: the record is taken away, and then used. -/
def clearAndKill (own : Nat) (s : Sup) (i : Nat) : Sup × List Nat :=
  if s.chl i ≠ 0 then
    let chl := Function.update s.chl i 0
    ({ s with chl := chl }, kill own s.children (chl i))
  else (s, [])

variable (nrUsed own : Nat)

instance (s : TermSt) : ∀ l : SupLbl, Decidable (Permitted own s l)
  | .fork pid =>
    have : Decidable (s.term = []) := decidable_of_iff (s.term.isEmpty = true) List.isEmpty_iff
    inferInstanceAs (Decidable (pid ≠ own ∧ (s.term = [] ∨ s.sup.handler ≠ .off)))
  | .listen | .record =>
    have : Decidable (s.term = []) := decidable_of_iff (s.term.isEmpty = true) List.isEmpty_iff
    inferInstanceAs (Decidable (s.term = [] ∨ s.sup.handler ≠ .off))
  | .exit _ | .sigchld | .reap _ | .ret => isTrue trivial

/-- One step. -/
def termStep : TermLbl → TermSt → Option TermSt
  | .sup l, s =>
    if Permitted own s l then
      (supStep nrUsed l s.sup).map fun sup =>
        { s with sup := sup, late := s.lateAfter l, exited := s.exitedAfter l }
    else none
  | .giveUp, s =>
    -- without a queue, a child or a listener
    match s.sup.handler with
    | .starts (.fork _) | .starts (.listen _ _) =>
      some { s with sup := { s.sup with handler := .reap } }
    | _ => none
  | .signal, s =>
    -- whoever finds its own pid is not the parent, and does nothing
    let start := if ∃ i < nrUsed, s.sup.chl i = own then nrUsed else 0
    some { s with term := { i := start, sent := [] } :: s.term }
  | .pass, s =>
    match s.term with
    | [] => none
    | h :: hs =>
      if h.i < nrUsed then
        let (sup, sent) := clearAndKill own s.sup h.i
        some { s with sup := sup, term := { i := h.i + 1, sent := h.sent ++ sent } :: hs }
      else none
  | .leave, s =>
    match s.term with
    | [] => none
    | h :: hs => if nrUsed ≤ h.i then some { s with term := hs, told := true } else none

/-! ## What is to hold -/

/-- A process is a live child. -/
def Sup.Lives (s : Sup) (pid : Nat) : Prop := ∃ c ∈ s.children, c.pid = pid ∧ c.alive = true

/-- What is to hold of a step: a pass sends the signal to live children only; at the end
every live child has been sent it; and a child that has exited since is not restarted. -/
def Tells : TermLbl → TermSt → Prop
  | .pass, s => ∀ h ∈ s.term.head?, ∀ pid ∈ (clearAndKill own s.sup h.i).2, s.sup.Lives pid
  | .leave, s => ∀ h ∈ s.term.head?, ∀ pid, s.sup.Lives pid → pid ∈ h.sent
  | .sup (.reap pid), s => pid ∈ s.exited → ∀ st, (s.sup.reaped nrUsed pid).handler ≠ .starts st
  | _, _ => True

/-- The condition: a pass finds no record, the end no live child, and a child that has
exited since was not recorded since. -/
def Untold : TermLbl → TermSt → Prop
  | .pass, s => ∀ h ∈ s.term.head?, s.sup.chl h.i = 0
  | .leave, s => ∀ pid, ¬ s.sup.Lives pid
  | .sup (.reap pid), s => pid ∈ s.exited → ∀ i < nrUsed, s.sup.chl i = pid → s.late i = false
  | _, _ => True

/-- Nobody lives when no child does. -/
theorem forall_not_lives_iff (s : Sup) :
    (∀ pid, ¬ s.Lives pid) ↔ ∀ c ∈ s.children, c.alive = false := by
  constructor
  · intro hno c hc
    by_contra hlive
    exact hno c.pid ⟨c, hc, rfl, by simpa using hlive⟩
  · rintro hdead pid ⟨c, hc, _, hlive⟩
    cases (hdead c hc).symm.trans hlive

instance : ∀ l s, Decidable (Untold nrUsed l s)
  | .pass, s => inferInstanceAs (Decidable (∀ h ∈ s.term.head?, s.sup.chl h.i = 0))
  | .leave, s => decidable_of_iff _ (forall_not_lives_iff s.sup).symm
  | .sup (.reap pid), s => inferInstanceAs
      (Decidable (pid ∈ s.exited → ∀ i < nrUsed, s.sup.chl i = pid → s.late i = false))
  | .sup (.fork _), _ | .sup .listen, _ | .sup .record, _ | .sup (.exit _), _ | .sup .sigchld, _
  | .sup .ret, _ | .giveUp, _ | .signal, _ => isTrue trivial

/-- The pid of the master is no child's. -/
structure Apart (own : Nat) (s : Sup) : Prop where
  children : ∀ c ∈ s.children, c.pid ≠ 0 ∧ c.pid ≠ own
  main : ∀ i pid, s.main.Has i pid → pid ≠ own
  handler : ∀ st i pid, s.handler = .starts st → st.Has i pid → pid ≠ own
  chl : ∀ i, s.chl i ≠ own

/-- The invariant: the pid of the master is apart, nothing has been sent, and what is
recorded behind a handling, or once one has ended, was recorded since a signal. -/
structure TermInv (s : TermSt) : Prop where
  apart : Apart own s.sup
  sent : ∀ h ∈ s.term, h.sent = []
  behind : ∀ h ∈ s.term, ∀ i < h.i, s.sup.chl i ≠ 0 → s.late i = true
  told : s.told = true → ∀ i < nrUsed, s.sup.chl i ≠ 0 → s.late i = true
  exited : ∀ pid ∈ s.exited, s.told = true

variable {nrUsed own}

/-- No child and no signal. -/
theorem termInit_inv (hown : own ≠ 0) : TermInv nrUsed own termInit := by
  have happart : Apart own supInit := by
    refine ⟨List.forall_mem_nil _, fun i pid h => ?_, fun st i pid h => ?_, fun i => hown.symm⟩
    · exact absurd h (by simp [supInit])
    · cases h
  exact ⟨happart, List.forall_mem_nil _, List.forall_mem_nil _,
    fun h => absurd h Bool.false_ne_true, List.forall_mem_nil _⟩

/-! ## Starts and exits -/

/-- A start that goes on leaves the records alone. -/
theorem goTo_chl (s : Sup) (st : Start) : (s.goTo st).chl = s.chl := by
  unfold Sup.goTo
  split
  · rfl
  · rfl

/-- So does one that ends. -/
theorem finish_chl (s : Sup) (i : Nat) : (s.finish i).chl = s.chl := by
  unfold Sup.finish
  split
  · rfl
  · rfl

section Apart

variable {s t : Sup}

/-- The running start goes on, with a child apart. -/
theorem Apart.goTo (h : Apart own s) {st : Start} (hst : ∀ i pid, st.Has i pid → pid ≠ own) :
    Apart own (s.goTo st) := by
  unfold Sup.goTo
  split
  · exact ⟨h.children, hst, h.handler, h.chl⟩
  · refine ⟨h.children, h.main, ?_, h.chl⟩
    rintro _ i pid ⟨⟩ hhas
    exact hst i pid hhas

/-- It brings no pid. -/
theorem Apart.finish (h : Apart own s) (i : Nat) : Apart own (s.finish i) := by
  unfold Sup.finish
  split
  · refine ⟨h.children, fun j pid hhas => ?_, h.handler, h.chl⟩
    exact absurd hhas (by simp)
  · refine ⟨h.children, h.main, ?_, h.chl⟩
    rintro _ j pid ⟨⟩

/-- The start that runs has a child apart. -/
theorem Apart.running (h : Apart own s) {st : Start} (hrun : s.running = some st) {i pid : Nat}
    (hhas : st.Has i pid) : pid ≠ own := by
  unfold Sup.running at hrun
  cases hhandler : s.handler with
  | off =>
    rw [hhandler] at hrun
    cases hrun
    exact h.main i pid hhas
  | reap =>
    rw [hhandler] at hrun
    cases hrun
  | starts st' =>
    rw [hhandler] at hrun
    cases hrun
    exact h.handler _ i pid hhandler hhas

/-- A record is set to a pid that is apart, or taken away. -/
theorem Apart.update (h : Apart own s) (i : Nat) {pid : Nat} (hpid : pid ≠ own) :
    Apart own { s with chl := Function.update s.chl i pid } := by
  refine ⟨h.children, h.main, h.handler, fun j => ?_⟩
  by_cases hj : j = i
  · rw [hj]
    simp only [Function.update_self]
    exact hpid
  · simp only
    rw [Function.update_of_ne hj]
    exact h.chl j

/-- Nor does the handler on its way. -/
theorem Apart.off (h : Apart own s) {handler : Handler} (hidle : ∀ st, handler ≠ .starts st) :
    Apart own { s with handler := handler } :=
  ⟨h.children, h.main, fun st _ _ hst => absurd hst (hidle st), h.chl⟩

/-- **Each step of a start or of a child** keeps the pid of the master apart. -/
theorem Apart.step (h : Apart own s) (hown : own ≠ 0) {l : SupLbl}
    (hfork : ∀ pid, l = .fork pid → pid ≠ own) (hstep : supStep nrUsed l s = some t) :
    Apart own t := by
  cases l with
  | fork pid =>
    have hpid := hfork pid rfl
    simp only [supStep] at hstep
    split at hstep
    · next i _ =>
      obtain ⟨⟨_, hfresh⟩, hres⟩ := Option.ite_none_right_eq_some.mp hstep
      cases hres
      -- `fork` does not return the pid of the master
      have hnew : Apart own { s with children := ⟨pid, i, true⟩ :: s.children } :=
        ⟨List.forall_mem_cons.mpr ⟨⟨hfresh.1, hpid⟩, h.children⟩, h.main, h.handler, h.chl⟩
      refine hnew.goTo fun j p hhas => ?_
      obtain ⟨_, rfl⟩ := (has_listen i pid j p).mp hhas
      exact hpid
    · cases hstep
  | listen =>
    simp only [supStep] at hstep
    split at hstep
    · next i pid hrun =>
      cases hstep
      refine h.goTo fun j p hhas => ?_
      obtain ⟨_, rfl⟩ := (has_record i pid j p).mp hhas
      exact h.running hrun (Or.inl rfl)
    · cases hstep
  | record =>
    simp only [supStep] at hstep
    split at hstep
    · next i pid hrun =>
      cases hstep
      exact (h.update i (h.running hrun (Or.inr rfl))).finish i
    · cases hstep
  | exit pid =>
    obtain ⟨_, hres⟩ := Option.ite_none_right_eq_some.mp hstep
    cases hres
    refine ⟨fun c hc => ?_, h.main, h.handler, h.chl⟩
    obtain ⟨c', hc', rfl⟩ := List.mem_map.mp hc
    have hapart := h.children c' hc'
    split
    · exact hapart
    · exact hapart
  | sigchld =>
    obtain ⟨_, hres⟩ := Option.ite_none_right_eq_some.mp hstep
    cases hres
    exact h.off fun st hst => nomatch hst
  | reap pid =>
    obtain ⟨⟨hreap, _⟩, hres⟩ := Option.ite_none_right_eq_some.mp hstep
    cases hres
    have hleft : Apart own { s with children := s.children.filter fun c => c.pid ≠ pid } :=
      ⟨fun c hc => h.children c (List.mem_filter.mp hc).1, h.main, h.handler, h.chl⟩
    unfold Sup.reaped
    simp only
    split
    · exact hleft
    · next i _ =>
      -- the record is cleared, and zero is no pid of the master either
      have hcleared := hleft.update i (Ne.symm hown)
      refine ⟨hcleared.children, hcleared.main, ?_, hcleared.chl⟩
      rintro _ j p ⟨⟩ hhas
      exact absurd hhas (by simp)
  | ret =>
    obtain ⟨_, hres⟩ := Option.ite_none_right_eq_some.mp hstep
    cases hres
    exact h.off fun st hst => nomatch hst

/-- What a child that is reaped leaves of the records. -/
theorem reaped_chl (s : Sup) (pid : Nat) {i : Nat} (hi : (s.reaped nrUsed pid).chl i ≠ 0) :
    s.chl i ≠ 0 := by
  unfold Sup.reaped at hi
  simp only at hi
  split at hi
  · exact hi
  · next j _ =>
    simp only at hi
    by_cases hj : i = j
    · rw [hj, Function.update_self] at hi
      exact absurd rfl hi
    · rw [Function.update_of_ne hj] at hi
      exact hi

/-- A child that is reaped is restarted exactly if it is recorded. -/
theorem reaped_starts_iff {pid : Nat} (hreap : s.handler = .reap) :
    (∀ st, (s.reaped nrUsed pid).handler ≠ .starts st) ↔ ∀ i < nrUsed, s.chl i ≠ pid := by
  unfold Sup.reaped
  simp only
  cases hfind : findChl nrUsed s.chl pid with
  | none =>
    have hnone := List.find?_eq_none.mp hfind
    refine ⟨fun _ i hi => ?_, fun _ st hst => ?_⟩
    · have hne := hnone i (List.mem_range.mpr hi)
      simpa using hne
    · simp only [hreap] at hst
      cases hst
  | some j =>
    have hmem : j < nrUsed := List.mem_range.mp (List.mem_of_find?_eq_some hfind)
    have hj : s.chl j = pid := by simpa using List.find?_some hfind
    exact ⟨fun hno => absurd rfl (hno (.fork j)), fun hno => absurd hj (hno j hmem)⟩

end Apart

/-! ## One step -/

section Steps

variable {s t : TermSt}

/-- A record behind a step is an old one, or was made now. -/
theorem late_after {l : SupLbl} {sup : Sup} (hstep : supStep nrUsed l s.sup = some sup) {i : Nat}
    (hi : sup.chl i ≠ 0) : s.sup.chl i ≠ 0 ∧ s.lateAfter l i = s.late i ∨
      s.lateAfter l i = (s.told || !s.term.isEmpty) := by
  cases l with
  | fork pid =>
    left
    simp only [supStep] at hstep
    split at hstep
    · obtain ⟨_, hres⟩ := Option.ite_none_right_eq_some.mp hstep
      cases hres
      rw [goTo_chl] at hi
      exact ⟨hi, rfl⟩
    · cases hstep
  | listen =>
    left
    simp only [supStep] at hstep
    split at hstep
    · cases hstep
      rw [goTo_chl] at hi
      exact ⟨hi, rfl⟩
    · cases hstep
  | record =>
    simp only [supStep] at hstep
    split at hstep
    · next j pid hrun =>
      cases hstep
      simp only [finish_chl] at hi
      unfold TermSt.lateAfter
      simp only [hrun]
      by_cases hij : i = j
      · -- the record that is made now is marked
        right
        rw [hij, Function.update_self]
      · left
        rw [Function.update_of_ne hij] at hi ⊢
        exact ⟨hi, rfl⟩
    · cases hstep
  | exit | sigchld | ret =>
    left
    obtain ⟨_, hres⟩ := Option.ite_none_right_eq_some.mp hstep
    cases hres
    exact ⟨hi, rfl⟩
  | reap pid =>
    left
    obtain ⟨_, hres⟩ := Option.ite_none_right_eq_some.mp hstep
    cases hres
    exact ⟨reaped_chl s.sup pid hi, rfl⟩

/-- A step of a start or of a child keeps the invariant. -/
theorem TermInv.sup (h : TermInv nrUsed own s) (hown : own ≠ 0) {l : SupLbl} {sup : Sup}
    (hperm : Permitted own s l) (hstep : supStep nrUsed l s.sup = some sup) :
    TermInv nrUsed own { s with
      sup := sup
      late := s.lateAfter l
      exited := s.exitedAfter l } := by
  refine ⟨h.apart.step hown ?_ hstep, h.sent, fun g hg i hi hne => ?_, fun htold i hi hne => ?_, ?_⟩
  · rintro pid rfl
    exact hperm.1
  · -- while a signal is handled, only the loop of `handle_sigchld` makes records
    rcases late_after hstep hne with ⟨hold, hsame⟩ | hnew
    · exact hsame.trans (h.behind g hg i hi hold)
    · have hbusy : s.term.isEmpty = false := List.isEmpty_eq_false_iff.mpr (List.ne_nil_of_mem hg)
      simp only [hnew, hbusy, Bool.not_false, Bool.or_true]
  · rcases late_after hstep hne with ⟨hold, hsame⟩ | hnew
    · exact hsame.trans (h.told htold i hi hold)
    · have hyes : s.told = true := htold
      simp only [hnew, hyes, Bool.true_or]
  · intro pid hpid
    cases l with
    | exit p =>
      simp only [TermSt.exitedAfter] at hpid
      split at hpid
      · assumption
      · exact h.exited pid hpid
    | fork | listen | record | sigchld | reap | ret => exact h.exited pid hpid

/-- The child that is reaped, on either side of its condition. -/
theorem TermInv.reap_iff (h : TermInv nrUsed own s) {pid : Nat} {sup : Sup}
    (hstep : supStep nrUsed (.reap pid) s.sup = some sup) :
    Tells nrUsed own (.sup (.reap pid)) s ↔ Untold nrUsed (.sup (.reap pid)) s := by
  obtain ⟨⟨hreap, c, hc, hpid, _⟩, _⟩ := Option.ite_none_right_eq_some.mp hstep
  have hpos := (h.apart.children c hc).1
  unfold Tells Untold
  refine forall_congr' fun hexited => ?_
  rw [reaped_starts_iff hreap]
  refine forall_congr' fun i => forall_congr' fun hi => ?_
  constructor
  · exact fun hne heq => absurd heq hne
  · intro hlate heq
    -- what is recorded by now was recorded since
    have hne : s.sup.chl i ≠ 0 := by
      rw [heq, ← hpid]
      exact hpos
    have hsince := h.told (h.exited pid hexited) i hi hne
    rw [hlate heq] at hsince
    exact Bool.false_ne_true hsince

/-- A pass that finds a record sends the signal to the master too. -/
theorem clearAndKill_own (own : Nat) (sup : Sup) {i : Nat} (hi : sup.chl i ≠ 0) :
    own ∈ (clearAndKill own sup i).2 := by
  unfold clearAndKill kill
  rw [if_pos hi]
  simp only [Function.update_self]
  exact List.mem_cons_self

/-- A pass that finds none does nothing. -/
theorem clearAndKill_none (own : Nat) {sup : Sup} {i : Nat} (hi : sup.chl i = 0) :
    clearAndKill own sup i = (sup, []) := if_neg (not_not.mpr hi)

/-- A pass that finds no record changes none. -/
theorem TermInv.pass (h : TermInv nrUsed own s) {g : Handling} {gs : List Handling}
    (hterm : s.term = g :: gs) (hnone : s.sup.chl g.i = 0) :
    TermInv nrUsed own { s with term := { i := g.i + 1, sent := g.sent ++ [] } :: gs } := by
  have hsent := h.sent
  have hbehind := h.behind
  rw [hterm, List.forall_mem_cons] at hsent hbehind
  refine ⟨h.apart, ?_, ?_, h.told, h.exited⟩
  · refine List.forall_mem_cons.mpr ⟨?_, hsent.2⟩
    rw [hsent.1]
    rfl
  · refine List.forall_mem_cons.mpr ⟨fun i hi hne => ?_, hbehind.2⟩
    have hlt : i < g.i := by
      have hle : i < g.i + 1 := hi
      have hij : i ≠ g.i := fun heq => hne (heq ▸ hnone)
      omega
    exact hbehind.1 i hlt hne

/-- The end of a handling: from now on the children are told. -/
theorem TermInv.leave (h : TermInv nrUsed own s) {g : Handling} {gs : List Handling}
    (hterm : s.term = g :: gs) (hend : nrUsed ≤ g.i) :
    TermInv nrUsed own { s with term := gs, told := true } := by
  have hsent := h.sent
  have hbehind := h.behind
  rw [hterm, List.forall_mem_cons] at hsent hbehind
  refine ⟨h.apart, hsent.2, hbehind.2, fun _ i hi => ?_, fun _ _ => rfl⟩
  exact hbehind.1 i (Nat.lt_of_lt_of_le hi hend)

/-- A pass, on either side of its condition: the master is no child of its own. -/
theorem TermInv.pass_iff (h : TermInv nrUsed own s) {g : Handling} {gs : List Handling}
    (hterm : s.term = g :: gs) : Tells nrUsed own .pass s ↔ s.sup.chl g.i = 0 := by
  simp only [Tells, hterm, List.head?_cons, Option.mem_def, Option.some.injEq, forall_eq']
  constructor
  · intro htells
    by_contra hrec
    -- `kill(0, signo)` reaches the master, which is no child of its own
    obtain ⟨c, hc, hpid, _⟩ := htells own (clearAndKill_own own s.sup hrec)
    exact (h.apart.children c hc).2 hpid
  · intro hnone
    rw [clearAndKill_none own hnone]
    exact List.forall_mem_nil _

/-- The end, on either side of its condition: nobody has been sent anything. -/
theorem TermInv.leave_iff (h : TermInv nrUsed own s) {g : Handling} {gs : List Handling}
    (hterm : s.term = g :: gs) : Tells nrUsed own .leave s ↔ ∀ pid, ¬ s.sup.Lives pid := by
  have hsent := h.sent g (by rw [hterm]; exact List.mem_cons_self)
  simp only [Tells, hterm, List.head?_cons, Option.mem_def, Option.some.injEq, forall_eq', hsent,
    List.not_mem_nil]

/-- **One step**, on either side of its condition. -/
theorem termStep_cases (hown : own ≠ 0) (l : TermLbl) (s t : TermSt) (h : TermInv nrUsed own s)
    (hstep : termStep nrUsed own l s = some t) :
    Untold nrUsed l s ∧ Tells nrUsed own l s ∧ TermInv nrUsed own t ∨
      ¬ Untold nrUsed l s ∧ ¬ Tells nrUsed own l s := by
  cases l with
  | sup l =>
    simp only [termStep, Option.ite_none_right_eq_some] at hstep
    rcases hstep with ⟨hperm, hmap⟩
    obtain ⟨sup, hsup, rfl⟩ := Option.map_eq_some_iff.mp hmap
    have hinv := h.sup hown hperm hsup
    cases l with
    | reap pid =>
      -- a child that is reaped has been recorded since the signal, or not
      have hiff := h.reap_iff hsup
      by_cases hc : Untold nrUsed (.sup (.reap pid)) s
      · exact Or.inl ⟨hc, hiff.mpr hc, hinv⟩
      · exact Or.inr ⟨hc, fun htells => hc (hiff.mp htells)⟩
    | fork | listen | record | exit | sigchld | ret => exact Or.inl ⟨trivial, trivial, hinv⟩
  | giveUp =>
    left
    refine ⟨trivial, trivial, ?_⟩
    have hidle : Apart own { s.sup with handler := .reap } := h.apart.off fun st hst => nomatch hst
    simp only [termStep] at hstep
    split at hstep
    · cases hstep
      exact ⟨hidle, h.sent, h.behind, h.told, h.exited⟩
    · cases hstep
      exact ⟨hidle, h.sent, h.behind, h.told, h.exited⟩
    · cases hstep
  | signal =>
    left
    -- no record has the pid of the master itself
    have hparent : ¬ ∃ i < nrUsed, s.sup.chl i = own := fun ⟨i, _, hi⟩ => h.apart.chl i hi
    simp only [termStep, if_neg hparent] at hstep
    cases hstep
    refine ⟨trivial, trivial, h.apart, ?_, ?_, h.told, h.exited⟩
    · exact List.forall_mem_cons.mpr ⟨rfl, h.sent⟩
    · refine List.forall_mem_cons.mpr ⟨fun i hi => ?_, h.behind⟩
      exact absurd hi (Nat.not_lt_zero i)
  | pass =>
    simp only [termStep] at hstep
    cases hterm : s.term with
    | nil =>
      rw [hterm] at hstep
      cases hstep
    | cons g gs =>
      rw [hterm] at hstep
      obtain ⟨_, hres⟩ := Option.ite_none_right_eq_some.mp hstep
      -- a record that is found is taken away, and the signal goes to zero
      have huntold : Untold nrUsed .pass s ↔ s.sup.chl g.i = 0 := by simp [Untold, hterm]
      rw [huntold, h.pass_iff hterm]
      by_cases hnone : s.sup.chl g.i = 0
      · left
        rw [clearAndKill_none own hnone] at hres
        cases hres
        exact ⟨hnone, hnone, h.pass hterm hnone⟩
      · exact Or.inr ⟨hnone, hnone⟩
  | leave =>
    simp only [termStep] at hstep
    cases hterm : s.term with
    | nil =>
      rw [hterm] at hstep
      cases hstep
    | cons g gs =>
      rw [hterm] at hstep
      obtain ⟨hend, hres⟩ := Option.ite_none_right_eq_some.mp hstep
      cases hres
      have huntold : Untold nrUsed .leave s ↔ ∀ pid, ¬ s.sup.Lives pid := Iff.rfl
      rw [huntold, h.leave_iff hterm]
      by_cases hlive : ∀ pid, ¬ s.sup.Lives pid
      · exact Or.inl ⟨hlive, hlive, h.leave hterm hend⟩
      · exact Or.inr ⟨hlive, hlive⟩

end Steps

/-! ## Runs -/

/-- **The end of the workers.** In every run of starts, exits, restarts and signals, each
signal is sent to the live children and to nobody else, and no child that exits once one
has been handled is restarted, if and only if `handle_term` finds no record and leaves no
live child, and no child that exits then has been recorded since. -/
theorem term_iff {nrUsed own : Nat} (hown : own ≠ 0) (ls : List TermLbl) :
    Along (termStep nrUsed own) (Tells nrUsed own) ls termInit ↔
      Along (termStep nrUsed own) (Untold nrUsed) ls termInit := by
  apply along_iff_along (TermInv nrUsed own)
  · exact termStep_cases hown
  · exact termInit_inv hown

/-- The only worker exits, and its restart gives up in front of the fork; then the master is
told to end. -/
def restartFailed : List TermLbl :=
  [.sup (.fork 100), .sup .listen, .sup .record, .sup (.exit 100), .sup .sigchld,
    .sup (.reap 100), .giveUp, .sup .ret, .signal, .pass, .leave]

/-- The signal finds no record, and there is nobody it would have to be sent to. -/
theorem term_iff_restartFailed :
    (exec (termStep 1 50) restartFailed termInit).isSome ∧
      Along (termStep 1 50) (Tells 1 50) restartFailed termInit :=
  ⟨by decide +kernel, (term_iff (by decide) restartFailed).mpr (by decide +kernel)⟩

/-- One worker is started and recorded, and the signal arrives. -/
def oneTold : List TermLbl := [.sup (.fork 100), .sup .listen, .sup .record, .signal, .pass]

/-- The master sends the signal to itself. -/
theorem oneTold_not_tells :
    ¬ ∀ (nrUsed own : Nat) (ls : List TermLbl), own ≠ 0 →
      Along (termStep nrUsed own) (Tells nrUsed own) ls termInit := by
  intro hclaim
  have halong := hclaim 1 50 oneTold (by decide)
  have hpass := ((((halong _ rfl).2 _ rfl).2 _ rfl).2 _ rfl).2 _ rfl
  obtain ⟨c, hc, hpid, _⟩ := hpass.1 _ rfl 50 (by decide)
  rw [List.mem_singleton.mp hc] at hpid
  cases hpid

end SServer.Master
