import SServer.Lib.Handles
import SServer.Table.Restart

/-!
# SServer.Worker.Inherit — what a worker keeps of its master

A worker is forked between `master_mq_create` and `master_listen`, with all that is
open in the master. `work_init` closes what the table lists up to `maxfd`, and then
the ends of pipes: of its own those that are the master's, of the workers before it
(or, after a restart, of all others) the one that the master has. It goes by the
numbers in its copy of `epinfo.fds` and of `workmgr.works`.

Here `SServer.Table.Restart` is the master, from `main` on, and a child closes its
list while log files of its own come and go.

* `mainStep_boot`, `entryStep_boot`, `workStep_boot`, `bootStep_inv`: the master from `main` on:
  one step keeps its invariants.
* `forkWork_keeps_iff`: what is left of the master's descriptors in a child, and when that is
  what is meant.
* `work_init_keeps_ends`: the result about the workers.
* `master_keeps_ends`: the result about the master.

Both results ask for a run that is orderly: `main` starts its workers one after another, and no
call of a start fails. And they ask that no entry is closed again after its number was reopened,
without which they fail; `SServer.Table.Restart` shows how that comes about. Sockets and files
that the child opens itself are its own affair.
-/

namespace SServer.Worker

open SServer.Lib SServer.Table

/-! ## The master from `main` on -/

/-- The master, and the `isreboot` that its next child is to be called with. -/
structure Boot where
  m : Master
  isreboot : Bool

/-- The master at the beginning of `main`. -/
def bootInit : Boot := { m := masterInit, isreboot := false }

/-- `main` calls `work_init(i, 0)`, and `start_work` calls `work_init(idx, 1)`. -/
def rebootAfter (isreboot : Bool) : RestartLbl → Bool
  | .start _ => false
  | .stop _ => true
  | _ => isreboot

/-- One step of it, with a note whether the start in progress is a restart. -/
def bootStep (l : RestartLbl) (s : Boot) : Option Boot :=
  (restartStep l s.m).map fun m => { m := m, isreboot := rebootAfter s.isreboot l }

/-- The workers that have a child are those below `n`. -/
def Up (n : Int) (s : Master) : Prop := ∀ j, s.chld j = .alive ↔ 0 ≤ j ∧ j < n

/-- `main` starts its workers one after another and serves when all of them are there;
no child stops before that, and no call of `start_work` or `main` fails. -/
def Orderly (nrUsed : Nat) : RestartLbl → Master → Prop
  | .start idx, s => 0 ≤ idx ∧ idx < nrUsed ∧ Up idx s
  | .add _ _ _ _ _, s | .read _ _, s | .close _, s | .stop _, s => Up nrUsed s
  | .rqInit _ mapped, _ | .sqInit _ mapped, _ => mapped = true
  | .listen fd ctl _, _ => fd ≠ none ∧ ctl = true
  | .addPipe ctl, _ => ctl = true
  | _, _ => True

/-- The condition on a step: it is orderly, and what a restart closes is its own. -/
structure Boots (nrUsed : Nat) (l : RestartLbl) (s : Boot) : Prop where
  orderly : Orderly nrUsed l s.m
  noneReopened : NoneReopened l s.m

/-! ## `work_init` -/

/-- `for (idx = 0; idx <= epinfo.maxfd; ++idx)`: the numbers that are closed. -/
def listedFds (ep : EpInfo) : List Nat :=
  (List.range (ep.maxfd + 1).toNat).filterMap fun n =>
    if 0 < (ep.fds n).fd then some (ep.fds n).fd.toNat else none

/-- `max_works + 1`. -/
def nrClosed (isreboot : Bool) (nrUsed i : Nat) : Nat := if isreboot then nrUsed else i + 1

/-- `for (k = 0; k <= max_works; ++k)`: the ends that worker `i` closes. -/
def closedEnds (ends : Int → PipeEnd → Nat) (i n : Nat) : List Nat :=
  (List.range n).flatMap fun k =>
    if k = i then [ends i .rqWrite, ends i .sqRead] else [ends k .rqWrite]

/-- Worker `i` behind `fork`, with the numbers that `work_init` closes. -/
def forkWork (nrUsed i : Nat) (s : Boot) : Closing Nat Owner :=
  { table := s.m.owner
    todo := listedFds s.m.ep ++ closedEnds s.m.ends i (nrClosed s.isreboot nrUsed i) }

/-- The two ends that worker `i` uses: it reads its `rq` and writes to its `sq`. -/
def OwnEnd (ends : Int → PipeEnd → Nat) (i : Nat) (n : Nat) (o : Owner) : Prop :=
  o = .pipe i .rqRead ∧ n = ends i .rqRead ∨ o = .pipe i .sqWrite ∧ n = ends i .sqWrite

/-- A process has, but for what the master does not know of, these two. -/
def HasOwnEnds (ends : Int → PipeEnd → Nat) (i : Nat) (table : Nat → Option Owner) : Prop :=
  ∀ n o, o ≠ .other → (table n = some o ↔ OwnEnd ends i n o)

/-- The condition at `fork`: no registered descriptor is above `maxfd`, and neither of
the two ends has the number of an entry that is listed. -/
structure Clean (i : Nat) (s : Master) : Prop where
  below : ∀ n, InUse s.ep n → (n : Int) ≤ s.ep.maxfd
  unlisted : s.ends i .rqRead ∉ listedFds s.ep ∧ s.ends i .sqWrite ∉ listedFds s.ep

/-! ## The master's ends -/

/-- All ends of pipes that are open in the master are held there. -/
def Known (s : Master) : Prop :=
  ∀ n idx e, s.owner n = some (.pipe idx e) → s.holds idx e ∧ n = s.ends idx e

/-- Whom `start_work` is at work for. -/
def startee : Phase → Option Int
  | .idle => none
  | .loop idx _ | .work idx _ => some idx

/-- While worker `i` is started, the others that it is to know of have their children. -/
def Roster (nrUsed : Nat) (s : Boot) : Prop :=
  match startee s.m.phase with
  | none => s.isreboot = true → Up nrUsed s.m
  | some idx => ∃ i : Nat, idx = i ∧ i < nrClosed s.isreboot nrUsed i ∧
      ∀ j, s.m.chld j = .alive ↔ 0 ≤ j ∧ j < nrClosed s.isreboot nrUsed i ∧ j ≠ i

/-- Nothing has been closed: what is listed is in use, and `maxfd` bounds it. -/
def Fresh (ep : EpInfo) : Prop := ∀ n, (ep.fds n).fd ≤ 0 ∨ InUse ep n ∧ (n : Int) ≤ ep.maxfd

/-- `main` is still at its workers. -/
def Starting (nrUsed : Nat) (s : Boot) : Prop :=
  s.isreboot = false ∧ (startee s.m.phase = none → ¬ Up nrUsed s.m)

/-- The invariant of the master from `main` on, beside its own. -/
structure BootInv (nrUsed : Nat) (s : Boot) : Prop where
  known : Known s.m
  roster : Roster nrUsed s
  fresh : Starting nrUsed s → Fresh s.m.ep

/-- No worker has been started. -/
theorem bootInit_inv (nrUsed : Nat) : BootInv nrUsed bootInit := by
  constructor
  · intro n idx e hown
    simp only [bootInit, masterInit] at hown
    split at hown <;> cases hown
  · intro hreboot
    cases hreboot
  · intro _ n
    exact Or.inl (Int.le_refl 0)

variable {s t : Master}

/-! ## What each step does to the ends -/

/-- A number that comes to stand for no end of a pipe. -/
theorem Known.update (h : Known s) {n : Nat} {o : Option Owner} (hends : t.ends = s.ends)
    (howner : t.owner = Function.update s.owner n o)
    (ho : ∀ idx e, o ≠ some (.pipe idx e))
    (hholds : ∀ idx e, s.holds idx e → s.ends idx e ≠ n → t.holds idx e) : Known t := by
  intro m idx e hown
  rw [howner] at hown
  by_cases hm : m = n
  · rw [hm, Function.update_self] at hown
    exact absurd hown (ho idx e)
  · rw [Function.update_of_ne hm] at hown
    rcases h m idx e hown with ⟨hheld, heq⟩
    rw [hends]
    exact ⟨hholds idx e hheld (fun hne => hm (heq.trans hne)), heq⟩

/-- The ends of a pipe come to stand for themselves. -/
theorem Known.pipe {i : Int} {r w : PipeEnd} {fds : Option (Nat × Nat)} (h : Known s)
    (hrw : r ≠ w) (hfds : fds ≠ none) (hpipe : s.pipe i r w fds = some t)
    (hno : ∀ e, s.holds i e → e ≠ r ∧ e ≠ w) :
    ∀ n idx e, t.owner n = some (.pipe idx e) →
      (s.holds idx e ∨ idx = i ∧ (e = r ∨ e = w)) ∧ n = t.ends idx e := by
  rcases Option.ne_none_iff_exists'.mp hfds with ⟨⟨a, b⟩, heq⟩
  subst heq
  simp only [Master.pipe, Option.ite_none_right_eq_some] at hpipe
  rcases hpipe with ⟨⟨ha, hb, hab⟩, heq⟩
  rw [← Option.some.inj heq]
  intro n idx e hown
  simp only [Master.gets] at hown ⊢
  by_cases hnb : n = b
  · rw [hnb, Function.update_self] at hown
    cases hown
    simp [hnb]
  rw [Function.update_of_ne hnb] at hown
  by_cases hna : n = a
  · rw [hna, Function.update_self] at hown
    cases hown
    simp [hna, Function.update_of_ne hrw]
  -- an end that has been there before
  rw [Function.update_of_ne hna] at hown
  rcases h n idx e hown with ⟨hheld, hnum⟩
  refine ⟨Or.inl hheld, ?_⟩
  by_cases hi : idx = i
  · subst hi
    rcases hno e hheld with ⟨hr, hw⟩
    rw [Function.update_self, Function.update_of_ne hw, Function.update_of_ne hr]
    exact hnum
  · rw [Function.update_of_ne hi]
    exact hnum

/-- What is owned stays as it is. -/
theorem Known.same (h : Known s) (hends : t.ends = s.ends) (howner : t.owner = s.owner)
    (hholds : ∀ idx e, s.holds idx e → t.holds idx e) : Known t := by
  intro n idx e hown
  rw [howner] at hown
  rcases h n idx e hown with ⟨hheld, hnum⟩
  rw [hends]
  exact ⟨hholds idx e hheld, hnum⟩

/-- Within a phase the same ends are held. -/
theorem holds_within (hphase : t.phase = s.phase) (hchld : t.chld = s.chld) (idx : Int)
    (e : PipeEnd) : s.holds idx e → t.holds idx e := by
  intro hheld
  unfold Master.holds at hheld ⊢
  rw [hphase, hchld]
  exact hheld

/-- Registering is fresh to a fresh table. -/
theorem Fresh.register {ep : EpInfo} (h : Fresh ep) {n : Nat} (hpos : 0 < n) (idx : Int)
    {type : FdType} (htype : type ≠ .null) (addr : FdAddr) :
    Fresh (addFdinfo n idx type addr ep) := by
  rcases addFdinfo_frame n idx type addr ep with ⟨hfds, hmax, _, _⟩
  intro m
  unfold InUse Registered
  rw [hfds, hmax]
  by_cases hm : m = n
  · subst hm
    right
    rw [Function.update_self]
    exact ⟨⟨hpos, htype, rfl⟩, Int.le_max_right _ _⟩
  · rw [Function.update_of_ne hm]
    rcases h m with hle | ⟨huse, hle⟩
    · exact Or.inl hle
    · exact Or.inr ⟨huse, Int.le_trans hle (Int.le_max_left _ _)⟩

/-- `pipe` is of no concern to the children and to the table. -/
theorem pipe_frame {idx : Int} {r w : PipeEnd} {fds : Option (Nat × Nat)}
    (h : s.pipe idx r w fds = some t) : t.chld = s.chld ∧ t.ep = s.ep := by
  cases fds with
  | none =>
    cases h
    exact ⟨rfl, rfl⟩
  | some mn =>
    simp only [Master.pipe, Option.ite_none_right_eq_some] at h
    rw [← Option.some.inj h.2]
    exact ⟨rfl, rfl⟩

variable {nrUsed : Nat} {b : Bool}

/-- A step between the beginning and the end of a start, or outside of any. -/
theorem BootInv.onwards (h : BootInv nrUsed ⟨s, b⟩) (hphase : startee t.phase = startee s.phase)
    (hchld : t.chld = s.chld) (hknown : Known t)
    (hfresh : Starting nrUsed ⟨s, b⟩ → Fresh s.ep → Fresh t.ep) : BootInv nrUsed ⟨t, b⟩ := by
  have hup : ∀ n, Up n t ↔ Up n s := by
    intro n
    unfold Up
    rw [hchld]
  have hstarting : Starting nrUsed ⟨t, b⟩ → Starting nrUsed ⟨s, b⟩ := by
    rintro ⟨hreboot, hnot⟩
    refine ⟨hreboot, fun hnone hall => ?_⟩
    exact hnot (hphase.trans hnone) ((hup nrUsed).mpr hall)
  constructor
  · exact hknown
  · have hroster := h.roster
    unfold Roster at hroster ⊢
    simp only [hphase, hchld, hup]
    exact hroster
  · intro hstart
    exact hfresh (hstarting hstart) (h.fresh (hstarting hstart))

/-- **The steps outside of `start_work`.** A worker is started when those before it are
up, and restarted when all are. -/
theorem mainStep_boot {l : RestartLbl} (h : BootInv nrUsed ⟨s, b⟩) (hphase : s.phase = .idle)
    (hl : Orderly nrUsed l s) (hstep : mainStep l s = some t) :
    BootInv nrUsed ⟨t, rebootAfter b l⟩ := by
  have hstartee : startee s.phase = none := by
    rw [hphase]
    rfl
  have hnone : Up nrUsed s → ¬ Starting nrUsed ⟨s, b⟩ := fun hup hstart => hstart.2 hstartee hup
  cases l with
  | add ctl fd idx type addr =>
    simp only [mainStep, Option.ite_none_right_eq_some] at hstep
    rcases hstep with ⟨_, heq⟩
    rw [← Option.some.inj heq]
    refine h.onwards rfl rfl ?_ fun hstart => absurd hstart (hnone hl)
    refine h.known.update rfl rfl ?_ fun j e he _ => holds_within rfl rfl j e he
    intro j e
    cases ctl <;> simp
  | read fd full =>
    rcases Option.map_eq_some_iff.mp hstep with ⟨ep', _, heq⟩
    rw [← heq]
    exact h.onwards rfl rfl (h.known.same rfl rfl (holds_within rfl rfl))
      fun hstart => absurd hstart (hnone hl)
  | close fd =>
    simp only [mainStep] at hstep
    by_cases hnull : (s.ep.fds fd).type = .null
    · rw [if_pos hnull] at hstep
      rw [← Option.some.inj hstep]
      exact h
    · rw [if_neg hnull] at hstep
      rcases Option.map_eq_some_iff.mp hstep with ⟨ep', _, heq⟩
      rw [← heq]
      refine h.onwards rfl rfl ?_ fun hstart => absurd hstart (hnone hl)
      exact h.known.update rfl rfl (by simp) fun j e he _ => holds_within rfl rfl j e he
  | start idx =>
    simp only [mainStep, Option.ite_none_right_eq_some] at hstep
    rcases hstep with ⟨hunborn, heq⟩
    rw [← Option.some.inj heq]
    rcases hl with ⟨hpos, hlt, hup⟩
    -- not all are up yet, so this is no restart
    have hnotall : ¬ Up nrUsed s := by
      intro hall
      cases hunborn.symm.trans ((hall idx).mpr ⟨hpos, hlt⟩)
    have hfirst : b = false := by
      cases b with
      | false => rfl
      | true =>
        have hroster := h.roster
        simp only [Roster, hstartee] at hroster
        exact absurd (hroster trivial) hnotall
    constructor
    · refine h.known.same rfl rfl fun j e he => ?_
      rcases (holds_idle hphase).mp he with ⟨halive, hwrite⟩
      refine (holds_work rfl).mpr (Or.inl ⟨?_, hwrite⟩)
      have hne : j ≠ idx := by
        intro hj
        rw [hj, hunborn] at halive
        cases halive
      exact (Function.update_of_ne hne _ _).trans halive
    · refine ⟨idx.toNat, (Int.toNat_of_nonneg hpos).symm, Nat.lt_succ_self _, fun j => ?_⟩
      by_cases hj : j = idx
      · subst hj
        simp only [Function.update_self]
        constructor
        · intro hgone
          cases hgone
        · intro hno
          exact absurd (Int.toNat_of_nonneg hpos).symm hno.2.2
      · simp only [Function.update_of_ne hj, hup j, rebootAfter, nrClosed]
        rw [Int.toNat_of_nonneg hpos]
        simp only [Bool.false_eq_true, if_false]
        omega
    · intro _
      exact h.fresh ⟨hfirst, fun _ => hnotall⟩
  | stop idx =>
    simp only [mainStep, Option.ite_none_right_eq_some] at hstep
    rcases hstep with ⟨halive, heq⟩
    rw [← Option.some.inj heq]
    have hup : Up nrUsed s := hl
    rcases (hup idx).mp halive with ⟨hpos, hlt⟩
    constructor
    · refine h.known.same rfl rfl fun j e he => ?_
      rcases (holds_idle hphase).mp he with ⟨hlive, hwrite⟩
      refine (holds_loop rfl).mpr ⟨?_, hwrite⟩
      by_cases hj : j = idx
      · exact Or.inr hj
      · exact Or.inl ((Function.update_of_ne hj _ _).trans hlive)
    · refine ⟨idx.toNat, (Int.toNat_of_nonneg hpos).symm, ?_, fun j => ?_⟩
      · simp only [rebootAfter, nrClosed, if_true]
        omega
      · by_cases hj : j = idx
        · subst hj
          simp only [Function.update_self]
          constructor
          · intro hgone
            cases hgone
          · intro hno
            exact absurd (Int.toNat_of_nonneg hpos).symm hno.2.2
        · simp only [Function.update_of_ne hj, hup j, rebootAfter, nrClosed, if_true]
          rw [Int.toNat_of_nonneg hpos]
          omega
    · intro hstart
      cases hstart.1
  | _ => cases hstep

/-- **An iteration of the loop of `start_work`.** -/
theorem entryStep_boot (h : BootInv nrUsed ⟨s, b⟩) {idx : Int} {i : Nat}
    (hphase : s.phase = .loop idx i) : BootInv nrUsed ⟨entryStep idx i s, b⟩ := by
  have hstartee : startee s.phase = some idx := by
    rw [hphase]
    rfl
  have hnext : ∀ m : Master, m.phase = .loop idx (i + 1) → m.chld = s.chld →
      ∀ j e, s.holds j e → m.holds j e := by
    intro m hloop hchld j e he
    rw [holds_loop hloop, hchld]
    exact (holds_loop hphase).mp he
  unfold entryStep
  by_cases hle : (i : Int) ≤ s.ep.maxfd
  · rw [if_pos hle]
    simp only
    -- a client that is down gives back its entry, all others stay
    by_cases hdown : (s.ep.fds i).Downed idx
    · rw [if_pos hdown]
      refine h.onwards hstartee.symm rfl ?_ fun _ hfresh n => ?_
      · refine h.known.update rfl rfl (by simp) fun j e he _ => hnext _ ?_ ?_ j e he
        · rfl
        · rfl
      · -- the entry is not listed any more
        by_cases hn : n = i
        · left
          simp only [hn, setFd_self]
          omega
        · unfold InUse Registered
          rw [setFd_other _ hn]
          exact hfresh n
    · rw [if_neg hdown]
      exact h.onwards hstartee.symm rfl (h.known.same rfl rfl (hnext _ rfl rfl)) fun _ hf => hf
  · rw [if_neg hle]
    refine h.onwards hstartee.symm rfl (h.known.same rfl rfl fun j e he => ?_) fun _ hf => hf
    refine (holds_work rfl).mpr ?_
    rcases (holds_loop hphase).mp he with ⟨halive | hj, hwrite⟩
    · exact Or.inl ⟨halive, hwrite⟩
    · exact Or.inr ⟨hj, hwrite⟩

/-- **The calls of `start_work` behind its loop**, none of which fails. -/
theorem workStep_boot {l : RestartLbl} (h : BootInv nrUsed ⟨s, b⟩) (hmaster : MasterInv s)
    {idx : Int} {stage : Stage} (hphase : s.phase = .work idx stage) (hl : Orderly nrUsed l s)
    (hpipes : NoneReopened l s) (hstep : workStep idx stage l s = some t) :
    BootInv nrUsed ⟨t, b⟩ := by
  have hstartee : startee s.phase = some idx := by
    rw [hphase]
    rfl
  have hchild : s.chld idx ≠ .alive := by
    have hphase' := hmaster.phase
    rw [hphase] at hphase'
    exact hphase'
  cases stage with
  | drop =>
    cases l with
    | drop =>
      rw [← Option.some.inj hstep]
      refine h.onwards hstartee.symm rfl ?_ fun _ hfresh => hfresh
      refine h.known.update rfl rfl (by simp) fun j e he hne => (holds_work rfl).mpr (Or.inl ?_)
      rcases (holds_work hphase).mp he with hother | ⟨hj, hwrite⟩
      · exact hother
      · have hwrite' : e = .rqWrite := hwrite
        rw [hj, hwrite'] at hne
        exact absurd rfl hne
    | _ => cases hstep
  | rqInit =>
    cases l with
    | rqInit fds mapped =>
      rcases Option.map_eq_some_iff.mp hstep with ⟨m, hpipe, heq⟩
      rw [← heq, if_pos (show mapped = true from hl)]
      rcases pipe_frame hpipe with ⟨hchld, hep⟩
      refine h.onwards hstartee.symm hchld ?_ fun _ hfresh => hep ▸ hfresh
      have hnew := h.known.pipe (by simp) hpipes hpipe fun e he => ?_
      · intro n j e hown
        rcases hnew n j e hown with ⟨hheld, hnum⟩
        refine ⟨(holds_work rfl).mpr ?_, hnum⟩
        rw [hchld]
        rcases hheld with hheld | ⟨hj, he⟩
        · rcases (holds_work hphase).mp hheld with hother | ⟨_, hno⟩
          · exact Or.inl hother
          · exact hno.elim
        · exact Or.inr ⟨hj, he⟩
      · rcases (holds_work hphase).mp he with ⟨halive, _⟩ | ⟨_, hno⟩
        · exact absurd halive hchild
        · exact hno.elim
    | _ => cases hstep
  | sqInit =>
    cases l with
    | sqInit fds mapped =>
      rcases Option.map_eq_some_iff.mp hstep with ⟨m, hpipe, heq⟩
      rw [← heq, if_pos (show mapped = true from hl)]
      rcases pipe_frame hpipe with ⟨hchld, hep⟩
      refine h.onwards hstartee.symm hchld ?_ fun _ hfresh => hep ▸ hfresh
      have hnew := h.known.pipe (by simp) hpipes hpipe fun e he => ?_
      · intro n j e hown
        rcases hnew n j e hown with ⟨hheld, hnum⟩
        refine ⟨(holds_work rfl).mpr ?_, hnum⟩
        rw [hchld]
        rcases hheld with hheld | ⟨hj, _⟩
        · rcases (holds_work hphase).mp hheld with hother | ⟨hj, _⟩
          · exact Or.inl hother
          · exact Or.inr ⟨hj, trivial⟩
        · exact Or.inr ⟨hj, trivial⟩
      · rcases (holds_work hphase).mp he with ⟨halive, _⟩ | ⟨_, hrq⟩
        · exact absurd halive hchild
        · rcases hrq with heq | heq
          · simp [heq]
          · simp [heq]
    | _ => cases hstep
  | listen =>
    cases l with
    | listen fd ctl addr =>
      rcases hl with ⟨hfd, hctl⟩
      cases fd with
      | none => exact absurd rfl hfd
      | some fd =>
        simp only [workStep, Option.ite_none_right_eq_some] at hstep
        rcases hstep with ⟨hfree, heq⟩
        rw [← Option.some.inj heq, if_pos hctl]
        subst hctl
        refine h.onwards hstartee.symm rfl ?_ fun _ hfresh =>
          hfresh.register hfree.1 idx (by simp) addr
        refine h.known.update rfl rfl (by simp) fun j e he _ => (holds_work rfl).mpr ?_
        exact (holds_work hphase).mp he
    | _ => cases hstep
  | addPipe =>
    cases l with
    | addPipe ctl =>
      have hctl : ctl = true := hl
      subst hctl
      simp only [workStep, Option.ite_none_right_eq_some] at hstep
      rcases hstep with ⟨_, heq⟩
      rw [← Option.some.inj heq]
      have hpos := (hmaster.held.pipes idx .sqRead ((holds_work hphase).mpr
        (Or.inr ⟨rfl, trivial⟩))).1
      refine h.onwards hstartee.symm rfl ?_ fun _ hfresh =>
        hfresh.register hpos idx (by simp) ⟨0, 0⟩
      refine h.known.update rfl rfl (by simp) fun j e he hne => (holds_work rfl).mpr ?_
      rcases (holds_work hphase).mp he with hother | ⟨hj, _⟩
      · exact Or.inl hother
      · refine Or.inr ⟨hj, ?_⟩
        show e ≠ .sqRead
        intro hread
        rw [hj, hread] at hne
        exact hne rfl
    | _ => cases hstep
  | closeRq =>
    cases l with
    | closeRq =>
      rw [← Option.some.inj hstep]
      refine h.onwards hstartee.symm rfl ?_ fun _ hfresh => hfresh
      refine h.known.update rfl rfl (by simp) fun j e he hne => (holds_work rfl).mpr ?_
      rcases (holds_work hphase).mp he with hother | ⟨hj, hsome⟩
      · exact Or.inl hother
      · refine Or.inr ⟨hj, ?_⟩
        have hsome' : e ≠ .sqRead := hsome
        cases e with
        | rqRead => exact absurd (by rw [hj]) hne
        | rqWrite => exact Or.inl rfl
        | sqRead => exact absurd rfl hsome'
        | sqWrite => exact Or.inr rfl
    | _ => cases hstep
  | closeSq =>
    cases l with
    | closeSq =>
      rw [← Option.some.inj hstep]
      have hroster := h.roster
      unfold Roster at hroster
      rw [hstartee] at hroster
      rcases hroster with ⟨i, hi, hlt, halive⟩
      -- its child makes them complete
      have hall : ∀ j, Function.update s.chld idx .alive j = .alive ↔
          0 ≤ j ∧ j < nrClosed b nrUsed i := by
        intro j
        by_cases hj : j = idx
        · subst hj
          simp only [Function.update_self, true_iff]
          simp only at hlt
          omega
        · rw [Function.update_of_ne hj, halive j]
          simp only
          omega
      constructor
      · refine h.known.update rfl rfl (by simp) fun j e he hne => ?_
        refine (holds_idle rfl).mpr ?_
        rcases (holds_work hphase).mp he with ⟨hother, hwrite⟩ | ⟨hj, hwrite | hwrite⟩
        · have hne' : j ≠ idx := fun hj => hchild (hj ▸ hother)
          exact ⟨(Function.update_of_ne hne' _ _).trans hother, hwrite⟩
        · rw [hj]
          exact ⟨Function.update_self _ _ _, hwrite⟩
        · rw [hj, hwrite] at hne
          exact absurd rfl hne
      · intro hreboot j
        have hreboot' : b = true := hreboot
        rw [hall j, hreboot']
        rfl
      · intro hstart
        refine h.fresh ⟨hstart.1, fun hnone => ?_⟩
        cases hstartee.symm.trans hnone
    | _ => cases hstep

/-- **One step** of the master from `main` on keeps its invariants. -/
theorem bootStep_inv {l : RestartLbl} {s t : Boot} (h : MasterInv s.m ∧ BootInv nrUsed s)
    (hl : Boots nrUsed l s) (hstep : bootStep l s = some t) :
    MasterInv t.m ∧ BootInv nrUsed t := by
  rcases h with ⟨hmaster, hboot⟩
  rcases Option.map_eq_some_iff.mp hstep with ⟨m, hm, heq⟩
  rw [← heq]
  refine ⟨restartStep_inv hmaster hl.noneReopened hm, ?_⟩
  -- in each phase of `start_work` its own step
  have hown : ownStep l s.m = some m → BootInv nrUsed ⟨m, rebootAfter s.isreboot l⟩ := by
    intro hown
    unfold ownStep at hown
    cases hphase : s.m.phase with
    | idle =>
      rw [hphase] at hown
      exact mainStep_boot hboot hphase hl.orderly hown
    | loop idx i =>
      rw [hphase] at hown
      cases l with
      | entry =>
        rw [← Option.some.inj hown]
        exact entryStep_boot hboot hphase
      | _ => cases hown
    | work idx stage =>
      rw [hphase] at hown
      have hsame : rebootAfter s.isreboot l = s.isreboot := by
        cases l with
        | start | stop => cases stage <;> cases hown
        | _ => rfl
      rw [hsame]
      exact workStep_boot hboot hmaster hphase hl.orderly hl.noneReopened hown
  cases l with
  | opens n =>
    simp only [restartStep, Option.ite_none_right_eq_some] at hm
    rw [← Option.some.inj hm.2]
    refine hboot.onwards rfl rfl ?_ fun _ hfresh => hfresh
    exact hboot.known.update rfl rfl (by simp) fun j e he _ => he
  | drops n =>
    simp only [restartStep, Option.ite_none_right_eq_some] at hm
    rw [← Option.some.inj hm.2]
    refine hboot.onwards rfl rfl ?_ fun _ hfresh => hfresh
    exact hboot.known.update rfl rfl (by simp) fun j e he _ => he
  | _ => exact hown hm

/-- Both invariants hold at the end of every orderly run. -/
theorem boot_of_run {ls : List RestartLbl} {s : Boot}
    (hls : Along bootStep (Boots nrUsed) ls bootInit) (hrun : exec bootStep ls bootInit = some s) :
    MasterInv s.m ∧ BootInv nrUsed s :=
  exec_invariant (fun s => MasterInv s.m ∧ BootInv nrUsed s)
    (fun _ _ _ hs hl => bootStep_inv hs hl) ⟨masterInit_inv, bootInit_inv nrUsed⟩ hls hrun

/-! ## What `work_init` closes -/

/-- An entry's number is its place, so the table lists a number at its own place only. -/
theorem mem_listedFds {ep : EpInfo} (hself : ∀ n, (ep.fds n).fd = n ∨ (ep.fds n).fd ≤ 0)
    {n : Nat} : n ∈ listedFds ep ↔ (n : Int) ≤ ep.maxfd ∧ 0 < (ep.fds n).fd := by
  unfold listedFds
  simp only [List.mem_filterMap, List.mem_range, Option.ite_none_right_eq_some, Option.some.injEq]
  constructor
  · rintro ⟨m, hm, hpos, heq⟩
    rcases hself m with hat | hle
    · have hmn : m = n := by omega
      rw [← hmn]
      exact ⟨by omega, hpos⟩
    · omega
  · rintro ⟨hle, hpos⟩
    refine ⟨n, by omega, hpos, ?_⟩
    rcases hself n with hat | hno
    · omega
    · omega

/-- The ends that `work_init` closes: two of its own, and one of each other worker that it goes
through. -/
theorem mem_closedEnds {ends : Int → PipeEnd → Nat} {i c n : Nat} :
    n ∈ closedEnds ends i c ↔
      (i < c ∧ (n = ends i .rqWrite ∨ n = ends i .sqRead)) ∨
        ∃ k : Nat, k < c ∧ k ≠ i ∧ n = ends k .rqWrite := by
  unfold closedEnds
  simp only [List.mem_flatMap, List.mem_range]
  constructor
  · rintro ⟨k, hk, hn⟩
    by_cases hki : k = i
    · rw [if_pos hki] at hn
      simp only [List.mem_cons, List.not_mem_nil, or_false] at hn
      exact Or.inl ⟨hki ▸ hk, hn⟩
    · rw [if_neg hki, List.mem_singleton] at hn
      exact Or.inr ⟨k, hk, hki, hn⟩
  · rintro (⟨hi, hn⟩ | ⟨k, hk, hki, hn⟩)
    · refine ⟨i, hi, ?_⟩
      rw [if_pos rfl]
      simpa using hn
    · refine ⟨k, hk, ?_⟩
      rw [if_neg hki, List.mem_singleton]
      exact hn

variable {i : Nat}

/-- At `fork` all four ends of its pipes are the worker's. -/
theorem holds_fork (hphase : s.phase = .work i .listen) {idx : Int} {e : PipeEnd} :
    s.holds idx e ↔ s.chld idx = .alive ∧ e = .rqWrite ∨ idx = i := by
  rw [holds_work hphase]
  exact or_congr_right (and_iff_left trivial)

/-- The second loop closes ends of pipes, and not those two. -/
theorem closedEnds_owner (hmaster : MasterInv s) (hboot : BootInv nrUsed ⟨s, b⟩)
    (hphase : s.phase = .work i .listen) {n : Nat}
    (hn : n ∈ closedEnds s.ends i (nrClosed b nrUsed i)) :
    ∃ idx e, s.owner n = some (.pipe idx e) ∧
      ¬ (idx = i ∧ (e = .rqRead ∨ e = .sqWrite)) := by
  have hroster := hboot.roster
  unfold Roster at hroster
  simp only [hphase, startee] at hroster
  rcases hroster with ⟨i', hi', _, halive⟩
  have hii : i' = i := by omega
  subst hii
  have hend : ∀ {idx e}, s.holds idx e → s.owner (s.ends idx e) = some (.pipe idx e) :=
    fun he => (hmaster.held.pipes _ _ he).2
  rcases mem_closedEnds.mp hn with ⟨_, hw | hr⟩ | ⟨k, hk, hki, hw⟩
  · rw [hw]
    exact ⟨i', .rqWrite, hend ((holds_fork hphase).mpr (Or.inr rfl)), by simp⟩
  · rw [hr]
    exact ⟨i', .sqRead, hend ((holds_fork hphase).mpr (Or.inr rfl)), by simp⟩
  · have hup : s.chld k = .alive := (halive k).mpr ⟨by omega, by omega, by omega⟩
    rw [hw]
    refine ⟨k, .rqWrite, hend ((holds_fork hphase).mpr (Or.inl ⟨hup, rfl⟩)), ?_⟩
    rintro ⟨heq, _⟩
    omega

/-- **What is left of the master's descriptors**, and when that is what is meant. -/
theorem forkWork_keeps_iff (hmaster : MasterInv s) (hboot : BootInv nrUsed ⟨s, b⟩)
    (hphase : s.phase = .work i .listen) :
    (∀ n o, o ≠ .other →
      (s.owner n = some o ∧ n ∉ (forkWork nrUsed i ⟨s, b⟩).todo ↔ OwnEnd s.ends i n o)) ↔
      Clean i s := by
  have hself := hmaster.held.self
  have hends : ∀ e, s.owner (s.ends i e) = some (.pipe i e) :=
    fun e => (hmaster.held.pipes i e ((holds_fork hphase).mpr (Or.inr rfl))).2
  have hnotEnd : ∀ e, e = .rqRead ∨ e = .sqWrite →
      s.ends i e ∉ closedEnds s.ends i (nrClosed b nrUsed i) := by
    intro e he hmem
    rcases closedEnds_owner hmaster hboot hphase hmem with ⟨j, e', hown, hne⟩
    cases (hends e).symm.trans hown
    exact hne ⟨rfl, he⟩
  simp only [forkWork, List.mem_append, not_or]
  constructor
  · intro hkeeps
    constructor
    · intro n huse
      by_contra hgt
      have hreg := hmaster.held.owned huse
      have hown : OwnEnd s.ends i n (.reg (s.ep.fds n).idx) := by
        refine (hkeeps n _ (by simp)).mp ⟨hreg, ?_, ?_⟩
        · intro hlist
          exact hgt ((mem_listedFds hself).mp hlist).1
        · intro hmem
          rcases closedEnds_owner hmaster hboot hphase hmem with ⟨j, e, hpipe, _⟩
          cases hreg.symm.trans hpipe
      rcases hown with ⟨hno, _⟩ | ⟨hno, _⟩
      · cases hno
      · cases hno
    · constructor
      · exact ((hkeeps _ _ (by simp)).mpr (Or.inl ⟨rfl, rfl⟩)).2.1
      · exact ((hkeeps _ _ (by simp)).mpr (Or.inr ⟨rfl, rfl⟩)).2.1
  · intro hclean n o ho
    constructor
    · rintro ⟨hown, hlist, hclosed⟩
      cases o with
      | other => exact absurd rfl ho
      | reg j =>
        -- the first loop has closed it
        have huse := ((hmaster.held.reg n j).mp hown).1
        have hat : (s.ep.fds n).fd = n := huse.2.2
        have hpos := huse.1
        exact absurd ((mem_listedFds hself).mpr ⟨hclean.below n huse, by omega⟩) hlist
      | pipe j e =>
        rcases hboot.known n j e hown with ⟨hheld, hnum⟩
        have hroster := hboot.roster
        unfold Roster at hroster
        simp only [hphase, startee] at hroster
        rcases hroster with ⟨i', hi', hlt, halive⟩
        have hii : i' = i := by omega
        subst hii
        rcases (holds_fork hphase).mp hheld with ⟨hup, hwrite⟩ | hj
        · -- the end of another worker
          rcases (halive j).mp hup with ⟨hpos, hbound, hne⟩
          refine absurd (mem_closedEnds.mpr (Or.inr ⟨j.toNat, by omega, by omega, ?_⟩)) hclosed
          rw [Int.toNat_of_nonneg hpos, hnum, hwrite]
        · subst hj
          cases e with
          | rqRead => exact Or.inl ⟨rfl, hnum⟩
          | sqWrite => exact Or.inr ⟨rfl, hnum⟩
          | rqWrite => exact absurd (mem_closedEnds.mpr (Or.inl ⟨hlt, Or.inl hnum⟩)) hclosed
          | sqRead => exact absurd (mem_closedEnds.mpr (Or.inl ⟨hlt, Or.inr hnum⟩)) hclosed
    · rintro (⟨heq, hn⟩ | ⟨heq, hn⟩)
      · rw [heq, hn]
        exact ⟨hends .rqRead, hclean.unlisted.1, hnotEnd .rqRead (Or.inl rfl)⟩
      · rw [heq, hn]
        exact ⟨hends .sqWrite, hclean.unlisted.2, hnotEnd .sqWrite (Or.inr rfl)⟩

/-- The workers that `main` starts are forked from a table in which nothing is stale. -/
theorem clean_of_first (hmaster : MasterInv s) (hboot : BootInv nrUsed ⟨s, false⟩)
    (hphase : s.phase = .work i .listen) : Clean i s := by
  have hfresh : Fresh s.ep := by
    refine hboot.fresh ⟨rfl, fun hnone => ?_⟩
    rw [hphase] at hnone
    cases hnone
  have hunlisted : ∀ e, s.ends i e ∉ listedFds s.ep := by
    intro e hmem
    have hown := (hmaster.held.pipes i e ((holds_fork hphase).mpr (Or.inr rfl))).2
    have hpos := ((mem_listedFds hmaster.held.self).mp hmem).2
    rcases hfresh (s.ends i e) with hle | ⟨huse, _⟩
    · omega
    · cases hown.symm.trans (hmaster.held.owned huse)
  refine ⟨fun n huse => ?_, hunlisted .rqRead, hunlisted .sqWrite⟩
  rcases hfresh n with hle | ⟨_, hle⟩
  · have hat : (s.ep.fds n).fd = n := huse.2.2
    have hpos := huse.1
    omega
  · exact hle

/-! ## Every worker of a run -/

/-- **A worker ends up with its own two ends exactly when** at its `fork` the table is
clean, and so it is for the workers that `main` starts: of all that it has got from its
master nothing else stays open behind `work_init`, and these two do. -/
theorem work_init_keeps_ends (nrUsed : Nat) {ls : List RestartLbl} {s : Boot}
    (hls : Along bootStep (Boots nrUsed) ls bootInit) (hrun : exec bootStep ls bootInit = some s)
    {i : Nat} (hfork : s.m.phase = .work i .listen) {cs : List (ClosingLbl Nat)}
    {k : Closing Nat Owner}
    (hclose : exec (closingStep .other) cs (forkWork nrUsed i s) = some k) (hdone : k.todo = []) :
    (HasOwnEnds s.m.ends i k.table ↔ Clean i s.m) ∧ (s.isreboot = false → Clean i s.m) := by
  rcases boot_of_run hls hrun with ⟨hmaster, hboot⟩
  constructor
  · rw [← forkWork_keeps_iff hmaster hboot hfork]
    refine forall_congr' fun n => forall_congr' fun o => forall_congr' fun ho => ?_
    rw [closing_spec hclose hdone n ho]
    rfl
  · intro hfirst
    have hboot' : BootInv nrUsed ⟨s.m, false⟩ := by
      rw [← hfirst]
      exact hboot
    exact clean_of_first hmaster hboot' hfork

/-- **Between starts the master itself has one end of each worker's pipes**, beside what
is registered: the one that it writes to. -/
theorem master_keeps_ends (nrUsed : Nat) {ls : List RestartLbl} {s : Boot}
    (hls : Along bootStep (Boots nrUsed) ls bootInit) (hrun : exec bootStep ls bootInit = some s)
    (hidle : s.m.phase = .idle) (n : Nat) (idx : Int) (e : PipeEnd) :
    s.m.owner n = some (.pipe idx e) ↔
      s.m.chld idx = .alive ∧ e = .rqWrite ∧ n = s.m.ends idx .rqWrite := by
  rcases boot_of_run hls hrun with ⟨hmaster, hboot⟩
  constructor
  · intro hown
    rcases hboot.known n idx e hown with ⟨hheld, hnum⟩
    rcases (holds_idle hidle).mp hheld with ⟨halive, hwrite⟩
    exact ⟨halive, hwrite, hwrite ▸ hnum⟩
  · rintro ⟨halive, hwrite, hn⟩
    rw [hn, hwrite]
    exact (hmaster.held.pipes idx .rqWrite ((holds_idle hidle).mpr ⟨halive, rfl⟩)).2

/-- A start that goes well meets the condition wherever its calls are made. -/
theorem boots_goesUp (nrUsed : Nat) (rq sq : Nat × Nat) (listenfd : Nat) :
    ∀ l ∈ goesUp rq sq listenfd, ∀ s, Boots nrUsed l s := by
  intro l hl s
  simp only [goesUp, List.mem_cons, List.not_mem_nil, or_false] at hl
  rcases hl with rfl | rfl | rfl | rfl | rfl | rfl
  · exact ⟨rfl, by simp [NoneReopened, Meets]⟩
  · exact ⟨rfl, by simp [NoneReopened, Meets]⟩
  · exact ⟨⟨by simp, rfl⟩, trivial⟩
  · exact ⟨rfl, trivial⟩
  · exact ⟨trivial, trivial⟩
  · exact ⟨trivial, trivial⟩

/-- The first of two workers is started. -/
def firstUp : List RestartLbl := .start 0 :: goesUp (3, 4) (5, 6) 7

/-- The second one is started up to its `fork`. -/
def secondForks : List RestartLbl := firstUp ++ .start 1 :: (goesUp (3, 6) (8, 9) 10).take 2

/-- The run is orderly, with two workers. -/
theorem firstUp_boots : Along bootStep (Boots 2) firstUp bootInit := by
  refine fun s _ => ⟨⟨⟨by decide, by decide, fun j => ?_⟩, trivial⟩, ?_⟩
  · simp only [bootInit, masterInit, reduceCtorEq, false_iff]
    omega
  · exact along_of_all (boots_goesUp 2 (3, 4) (5, 6) 7) s

/-- So is this one. -/
theorem secondForks_boots : Along bootStep (Boots 2) secondForks bootInit := by
  refine along_append firstUp_boots ?_
  intro s hs
  cases hs
  refine fun s _ => ⟨⟨⟨by decide, by decide, fun j => ?_⟩, trivial⟩, ?_⟩
  · -- the first one is up, and no other
    show Function.update (Function.update masterInit.chld 0 Chld.gone) 0 Chld.alive j = _ ↔ _
    rw [Function.update_idem]
    by_cases hj : j = 0
    · simp [hj]
    · rw [Function.update_of_ne hj]
      simp only [masterInit, reduceCtorEq, false_iff]
      omega
  · exact along_of_all (fun l hl => boots_goesUp 2 (3, 6) (8, 9) 10 l (List.mem_of_mem_take hl)) s

/-- The end that it writes to the first worker by. -/
theorem master_keeps_ends_firstUp :
    ∃ s, exec bootStep firstUp bootInit = some s ∧ s.m.owner 4 = some (.pipe 0 .rqWrite) := by
  refine ⟨_, rfl, ?_⟩
  exact (master_keeps_ends 2 firstUp_boots rfl rfl 4 0 .rqWrite).mpr ⟨rfl, rfl, rfl⟩

/-- The second worker has its own two ends and nothing of the first one's. -/
theorem work_init_keeps_ends_secondForks :
    ∃ s k, exec bootStep secondForks bootInit = some s ∧
      exec (closingStep .other) (List.replicate 5 .close) (forkWork 2 1 s) = some k ∧
        HasOwnEnds s.m.ends 1 k.table := by
  refine ⟨_, _, rfl, rfl, ?_⟩
  have h := work_init_keeps_ends 2 secondForks_boots rfl (i := 1) rfl
    (show exec (closingStep Owner.other) (List.replicate 5 .close) _ = some _ from rfl) rfl
  exact h.1.mpr (h.2 rfl)

/-- The second worker is up, and a client of it has come under number 12 and left. Then the
first worker is restarted, and the reading end of its new `rq` gets the number 12. -/
def staleForks : List RestartLbl :=
  firstUp ++ .start 1 :: goesUp (3, 6) (8, 9) 10 ++
    [.add true 12 1 .cli ⟨0, 0⟩, .add true 13 1 .cli ⟨0, 0⟩, .close 12, .stop 0] ++
    List.replicate 15 .entry ++ .drop :: (goesUp (12, 3) (4, 5) 7).take 2

/-- Its `work_init` closes that end with the client's entry. -/
theorem staleForks_loses_rq :
    ∃ s k, exec bootStep staleForks bootInit = some s ∧
      exec (closingStep .other) (List.replicate 7 .close) (forkWork 2 0 s) = some k ∧
        k.todo = [] ∧ s.m.ends 0 .rqRead = 12 ∧ k.table 12 = none := by
  refine ⟨_, _, rfl, rfl, rfl, rfl, rfl⟩

end SServer.Worker
