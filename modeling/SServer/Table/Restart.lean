import SServer.Lib.Run
import SServer.Table.Lists

/-!
# SServer.Table.Restart — `start_work` and the numbers it closes

A worker that has stopped is restarted by `start_work`: it closes what the table of
descriptors has for that worker, makes new queues and listens again. An entry is
chosen by `.idx` and `.fd`, and `do_fd_close` leaves both as they are. So the loop
closes once more what has been closed long ago, and by then the kernel may have
given the number to anything.

The kernel is here as the list of what each number stands for. `start_work` goes
step by step, since it logs between its calls and a log file takes a number, too.

* `Held`: the part of the invariant about the table and the pipes: an entry in use has its own
  number, and each end that is recorded and open is the kernel's.
* `Held.register`, `Held.release`, `Held.openEnd`, `Held.shutEnd`: one number changes hands.
* `restartStep_inv`: one step that meets the condition keeps the invariant.
* `MasterInv.entry_iff`, `MasterInv.loop_iff`: an iteration of the loop closes its own, or
  nothing, exactly when the entry at hand has not been closed before, or its number is not open.
* `entries_closeDowned`: the iterations are the loop of `SServer.Table.EpInfo`.
* `restart_closes_own`: the result, over whole runs of starts, restarts, clients and log files.
* `pipeReused_closes_other`: an old entry with the number of another worker's pipe.

The children are not in this module: what each of them keeps is `SServer.Worker.Inherit`.
`mq_init` may fail at its pipe or at its mapping, and a start then ends.
-/

namespace SServer.Table

open SServer.Lib SServer.Net

/-! ## The state -/

/-- The ends of the two pipes of a worker, `rq.pipefd` and `sq.pipefd`. -/
inductive PipeEnd where
  | rqRead
  | rqWrite
  | sqRead
  | sqWrite
deriving DecidableEq

/-- What an open number stands for: a descriptor that the table has for a worker, an
end of a worker's pipes, or anything else. -/
inductive Owner where
  | reg (idx : Int)
  | pipe (idx : Int) (e : PipeEnd)
  | other
deriving DecidableEq

/-- `chl_pids` for one worker, which also tells a worker that has never been started. -/
inductive Chld where
  | unborn
  | alive
  | gone
deriving DecidableEq

/-- What is next in `start_work` behind its loop. -/
inductive Stage where
  | drop
  | rqInit
  | sqInit
  | listen
  | addPipe
  | closeRq
  | closeSq
deriving DecidableEq

/-- Where the master stands: outside of `start_work`, in its loop, or behind it. -/
inductive Phase where
  | idle
  | loop (idx : Int) (i : Nat)
  | work (idx : Int) (stage : Stage)

/-- The master with its open numbers; `ends` are the `pipefd` fields of the workers. -/
structure Master where
  ep : EpInfo
  owner : Nat → Option Owner
  ends : Int → PipeEnd → Nat
  chld : Int → Chld
  phase : Phase

/-- A master before it starts its workers: the standard streams are open. -/
def masterInit : Master :=
  { ep := epInit
    owner := fun n => if n < 3 then some .other else none
    ends := fun _ _ => 0
    chld := fun _ => .unborn
    phase := .idle }

/-- `close(n)`. -/
def Master.shut (s : Master) (n : Nat) : Master :=
  { s with owner := Function.update s.owner n none }

/-- The kernel gives out `n`. -/
def Master.gets (s : Master) (n : Nat) (o : Owner) : Master :=
  { s with owner := Function.update s.owner n (some o) }

/-- The numbers the kernel may give out; `0` stays open. -/
def Master.Free (s : Master) (n : Nat) : Prop := 0 < n ∧ s.owner n = none

instance (s : Master) (n : Nat) : Decidable (s.Free n) := inferInstanceAs (Decidable (_ ∧ _))

/-- The `pipe` call of `mq_init`. Its failure is not noticed. -/
def Master.pipe (s : Master) (idx : Int) (r w : PipeEnd) : Option (Nat × Nat) → Option Master
  | none => some s
  | some (m, n) =>
    if s.Free m ∧ s.Free n ∧ m ≠ n then
      some
        { (s.gets m (.pipe idx r)).gets n (.pipe idx w) with
          ends := Function.update s.ends idx
            (Function.update (Function.update (s.ends idx) r m) w n) }
    else none

/-! ## Steps -/

/-- The steps of the master: some number is opened or closed that the table does not
know of (a log file); a new descriptor is registered, with the success of `epoll_ctl`;
a read fills a buffer or not; `do_fd_close`; a worker is started, or has stopped; an
iteration of the loop of `start_work`; and its calls behind the loop, with their
outcomes. -/
inductive RestartLbl where
  | opens (n : Nat)
  | drops (n : Nat)
  | add (ctl : Bool) (fd : Nat) (idx : Int) (type : FdType) (addr : FdAddr)
  | read (fd : Nat) (full : Bool)
  | close (fd : Nat)
  | start (idx : Int)
  | stop (idx : Int)
  | entry
  | drop
  | rqInit (fds : Option (Nat × Nat)) (mapped : Bool)
  | sqInit (fds : Option (Nat × Nat)) (mapped : Bool)
  | listen (fd : Option Nat) (ctl : Bool) (addr : FdAddr)
  | addPipe (ctl : Bool)
  | closeRq
  | closeSq

/-- A new descriptor goes through `add_fdinfo_to_epinfo`. -/
def Master.register (s : Master) (ctl : Bool) (fd : Nat) (idx : Int) (type : FdType)
    (addr : FdAddr) : Master :=
  { s.gets fd (if ctl then .reg idx else .other) with
    ep := (addFdinfoToEpinfo ctl fd idx type addr s.ep).2 }

/-- What the master itself does, outside of `start_work`. -/
def mainStep : RestartLbl → Master → Option Master
  | .add ctl fd idx type addr, s =>
    if s.Free fd ∧ type ≠ .null then some (s.register ctl fd idx type addr) else none
  | .read fd full, s =>
    (if full then doAddToReadlist fd s.ep else doDelFromReadlist fd s.ep).map fun ep =>
      { s with ep := ep }
  | .close fd, s =>
    if (s.ep.fds fd).type = .null then some s
    else (closeSlot fd s.ep).map fun ep => { s.shut fd with ep := ep }
  | .start idx, s =>
    if s.chld idx = .unborn then
      some { s with chld := Function.update s.chld idx .gone, phase := .work idx .rqInit }
    else none
  | .stop idx, s =>
    if s.chld idx = .alive then
      some { s with chld := Function.update s.chld idx .gone, phase := .loop idx 0 }
    else none
  | _, _ => none

/-- An iteration of the loop of `start_work` at entry `i`. -/
def entryStep (idx : Int) (i : Nat) (s : Master) : Master :=
  if (i : Int) ≤ s.ep.maxfd then
    let pfd := s.ep.fds i
    if pfd.Downed idx then
      { s.shut pfd.fd.toNat with
        ep := s.ep.setFd i { pfd with fd := -1 }, phase := .loop idx (i + 1) }
    else { s with phase := .loop idx (i + 1) }
  else { s with phase := .work idx .drop }

/-- A call of `start_work` behind its loop; what fails ends it. `master_mq_create`
makes the queues, and the steps from `listen` on are `master_listen`. -/
def workStep (idx : Int) : Stage → RestartLbl → Master → Option Master
  | .drop, .drop, s => some { s.shut (s.ends idx .rqWrite) with phase := .work idx .rqInit }
  | .rqInit, .rqInit fds mapped, s =>
    (s.pipe idx .rqRead .rqWrite fds).map fun s =>
      { s with phase := if mapped then .work idx .sqInit else .idle }
  | .sqInit, .sqInit fds mapped, s =>
    (s.pipe idx .sqRead .sqWrite fds).map fun s =>
      { s with phase := if mapped then .work idx .listen else .idle }
  | .listen, .listen none _ _, s => some { s with phase := .idle }
  | .listen, .listen (some fd) ctl addr, s =>
    if s.Free fd then
      some
        { s.register ctl fd idx .listen addr with
          phase := if ctl then .work idx .addPipe else .idle }
    else none
  | .addPipe, .addPipe true, s =>
    if s.owner (s.ends idx .sqRead) ≠ none then
      some { s.register true (s.ends idx .sqRead) idx .pipe ⟨0, 0⟩ with
        phase := .work idx .closeRq }
    else none
  | .addPipe, .addPipe false, s => some { s with phase := .idle }
  | .closeRq, .closeRq, s => some { s.shut (s.ends idx .rqRead) with phase := .work idx .closeSq }
  | .closeSq, .closeSq, s =>
    some
      { s.shut (s.ends idx .sqWrite) with
        chld := Function.update s.chld idx .alive, phase := .idle }
  | _, _, _ => none

/-- What the master does depends on where it stands. -/
def ownStep (l : RestartLbl) (s : Master) : Option Master :=
  match s.phase with
  | .idle => mainStep l s
  | .loop idx i =>
    match l with
    | .entry => some (entryStep idx i s)
    | _ => none
  | .work idx stage => workStep idx stage l s

/-- One step. Log files come and go at any time. -/
def restartStep : RestartLbl → Master → Option Master
  | .opens n, s => if s.Free n then some (s.gets n .other) else none
  | .drops n, s => if s.owner n = some .other then some (s.shut n) else none
  | l, s => ownStep l s

/-! ## What `start_work` closes -/

/-- The number that a step of `start_work` closes, and what it takes it for. -/
def shutBy : RestartLbl → Master → Option (Nat × Owner)
  | .entry, s =>
    match s.phase with
    | .loop idx i =>
      if (i : Int) ≤ s.ep.maxfd ∧ (s.ep.fds i).Downed idx then
        some ((s.ep.fds i).fd.toNat, .reg idx)
      else none
    | _ => none
  | .drop, s =>
    match s.phase with
    | .work idx .drop => some (s.ends idx .rqWrite, .pipe idx .rqWrite)
    | _ => none
  | .closeRq, s =>
    match s.phase with
    | .work idx .closeRq => some (s.ends idx .rqRead, .pipe idx .rqRead)
    | _ => none
  | .closeSq, s =>
    match s.phase with
    | .work idx .closeSq => some (s.ends idx .sqWrite, .pipe idx .sqWrite)
    | _ => none
  | _, _ => none

/-- What a step of `start_work(idx)` closes is open, and either registered for worker
`idx` or the end of its pipe that is meant. -/
def ClosesOwn (l : RestartLbl) (s : Master) : Prop :=
  ∀ n o, shutBy l s = some (n, o) → s.owner n = some o

/-- The same, but for numbers that are not open: there is nothing to close. -/
def ClosesNoOther (l : RestartLbl) (s : Master) : Prop :=
  ∀ n o, shutBy l s = some (n, o) → s.owner n = none ∨ s.owner n = some o

/-- An entry that has been registered, and not been closed since. -/
def InUse (ep : EpInfo) (n : Nat) : Prop := 0 < n ∧ Registered ep n

/-- The loop of `start_work` meets no entry that `do_fd_close` has closed, unless
`spared` lets it; nor does `do_fd_close` meet an entry that is not in use and not null,
as a restart leaves it behind, whose number is open again; and `pipe` succeeds. -/
def Meets (spared : Option Owner → Prop) : RestartLbl → Master → Prop
  | .entry, s =>
    ∀ idx i, s.phase = .loop idx i → (i : Int) ≤ s.ep.maxfd → (s.ep.fds i).Downed idx →
      (s.ep.fds i).type = .null → spared (s.owner i)
  | .close fd, s => (s.ep.fds fd).type ≠ .null → s.owner fd ≠ none → InUse s.ep fd
  | .rqInit fds _, _ | .sqInit fds _, _ => fds ≠ none
  | _, _ => True

/-- The condition: a closed entry that is met again has a number that is not open. -/
def NoneReopened : RestartLbl → Master → Prop := Meets fun o => o = none

/-- The stricter one: no closed entry is met again. -/
def NoneStale : RestartLbl → Master → Prop := Meets fun _ => False

/-! ## The invariant -/

/-- The master rightly thinks of `ends` as the ends of a worker's pipes, as far as they
are `held`; what the table has for a worker is what the kernel has. -/
structure Held (owner : Nat → Option Owner) (ep : EpInfo) (ends : Int → PipeEnd → Nat)
    (held : Int → PipeEnd → Prop) : Prop where
  reg : ∀ n idx, owner n = some (.reg idx) ↔ InUse ep n ∧ (ep.fds n).idx = idx
  self : ∀ n, (ep.fds n).fd = n ∨ (ep.fds n).fd ≤ 0
  pipes : ∀ idx e, held idx e → 0 < ends idx e ∧ owner (ends idx e) = some (.pipe idx e)

/-- The ends that are open for a worker at a stage of its `start_work`. -/
def Stage.holds : Stage → PipeEnd → Prop
  | .drop, e => e = .rqWrite
  | .rqInit, _ => False
  | .sqInit, e => e = .rqRead ∨ e = .rqWrite
  | .listen, _ | .addPipe, _ => True
  | .closeRq, e => e ≠ .sqRead
  | .closeSq, e => e = .rqWrite ∨ e = .sqWrite

/-- The ends that are open. -/
def Master.holds (s : Master) (idx : Int) (e : PipeEnd) : Prop :=
  match s.phase with
  | .idle => s.chld idx = .alive ∧ e = .rqWrite
  | .loop j _ => (s.chld idx = .alive ∨ idx = j) ∧ e = .rqWrite
  | .work j stage => s.chld idx = .alive ∧ e = .rqWrite ∨ idx = j ∧ stage.holds e

/-- Whom `start_work` is at work for has no child. -/
def Phase.Childless (chld : Int → Chld) : Phase → Prop
  | .idle => True
  | .loop idx _ | .work idx _ => chld idx ≠ .alive

/-- The invariant of a master. -/
structure MasterInv (s : Master) : Prop where
  held : Held s.owner s.ep s.ends s.holds
  phase : s.phase.Childless s.chld

/-- No pipe, no worker. -/
theorem masterInit_inv : MasterInv masterInit := by
  constructor
  · constructor
    · intro n idx
      constructor
      · intro howner
        simp only [masterInit] at howner
        split at howner <;> cases howner
      · rintro ⟨⟨hpos, _, hfd⟩, _⟩
        have hzero : ((0 : Int)) = n := hfd
        omega
    · intro n
      exact Or.inr (Int.le_refl 0)
    · rintro idx e ⟨halive, _⟩
      cases halive
  · trivial

variable {owner : Nat → Option Owner} {ep ep' : EpInfo} {ends ends' : Int → PipeEnd → Nat}
  {held held' : Int → PipeEnd → Prop}

/-- **One number changes hands**, and with it at most its entry. What is held now was
held before under another number, or is this one. -/
theorem Held.update (h : Held owner ep ends held) (n : Nat) (o : Option Owner)
    (hother : ∀ m, m ≠ n → ep'.fds m = ep.fds m)
    (hreg : ∀ idx, o = some (.reg idx) ↔ InUse ep' n ∧ (ep'.fds n).idx = idx)
    (hself : (ep'.fds n).fd = n ∨ (ep'.fds n).fd ≤ 0)
    (hends : ∀ idx e, held' idx e →
      (0 < n ∧ ends' idx e = n ∧ o = some (.pipe idx e)) ∨
        (held idx e ∧ ends' idx e = ends idx e ∧ ends idx e ≠ n)) :
    Held (Function.update owner n o) ep' ends' held' := by
  constructor
  · intro m idx
    by_cases hm : m = n
    · subst hm
      rw [Function.update_self]
      exact hreg idx
    · rw [Function.update_of_ne hm, h.reg m idx]
      unfold InUse Registered
      rw [hother m hm]
  · intro m
    by_cases hm : m = n
    · subst hm
      exact hself
    · rw [hother m hm]
      exact h.self m
  · intro idx e he
    rcases hends idx e he with ⟨hpos, heq, ho⟩ | ⟨hheld, heq, hne⟩
    · rw [heq, Function.update_self]
      exact ⟨hpos, ho⟩
    · rw [heq, Function.update_of_ne hne]
      exact h.pipes idx e hheld

/-- Fewer ends may be held. -/
theorem Held.mono (h : Held owner ep ends held) (hsub : ∀ idx e, held' idx e → held idx e) :
    Held owner ep ends held' :=
  ⟨h.reg, h.self, fun idx e he => h.pipes idx e (hsub idx e he)⟩

/-- An entry in use has an owner. -/
theorem Held.owned (h : Held owner ep ends held) {n : Nat} (huse : InUse ep n) :
    owner n = some (.reg (ep.fds n).idx) :=
  (h.reg n _).mpr ⟨huse, rfl⟩

/-- What is held is not a number that stands for something else. -/
theorem Held.apart (h : Held owner ep ends held) {idx : Int} {e : PipeEnd} (he : held idx e)
    {n : Nat} (hne : owner n ≠ some (.pipe idx e)) : ends idx e ≠ n := by
  intro heq
  rw [← heq] at hne
  exact hne (h.pipes idx e he).2

/-- Something that the master does not know of is opened or closed. -/
theorem Held.anon (h : Held owner ep ends held) {n : Nat} {o : Option Owner}
    (hold : owner n = none ∨ owner n = some .other) (hnew : o = none ∨ o = some .other) :
    Held (Function.update owner n o) ep ends held := by
  refine h.update n o (fun _ _ => rfl) (fun idx => ?_) (h.self n) fun idx e he => ?_
  · constructor
    · intro ho
      rcases hnew with hnone | hother
      · cases hnone.symm.trans ho
      · cases hother.symm.trans ho
    · rintro ⟨huse, _⟩
      have hreg := h.owned huse
      rcases hold with hnone | hother
      · cases hnone.symm.trans hreg
      · cases hother.symm.trans hreg
  · right
    refine ⟨he, rfl, h.apart he fun hpipe => ?_⟩
    rcases hold with hnone | hother
    · cases hnone.symm.trans hpipe
    · cases hother.symm.trans hpipe

/-- **A number is registered.** -/
theorem Held.register (h : Held owner ep ends held) {n : Nat} (hpos : 0 < n) (idx : Int)
    {type : FdType} (htype : type ≠ .null) (addr : FdAddr)
    (hends : ∀ j e, held' j e → held j e ∧ ends j e ≠ n) :
    Held (Function.update owner n (some (.reg idx))) (addFdinfo n idx type addr ep) ends
      held' := by
  have hfds : (addFdinfo n idx type addr ep).fds =
      Function.update ep.fds n (fdinfo n idx type addr) := (addFdinfo_frame n idx type addr ep).1
  have hnew : (addFdinfo n idx type addr ep).fds n = fdinfo n idx type addr := by
    rw [hfds, Function.update_self]
  refine h.update n _ (fun m hm => ?_) (fun j => ?_) (Or.inl ?_) fun j e he => ?_
  · rw [hfds, Function.update_of_ne hm]
  · unfold InUse Registered
    rw [hnew]
    constructor
    · intro ho
      cases ho
      exact ⟨⟨hpos, htype, rfl⟩, rfl⟩
    · rintro ⟨_, hidx⟩
      rw [← hidx]
      rfl
  · rw [hnew]
    rfl
  · right
    exact ⟨(hends j e he).1, rfl, (hends j e he).2⟩

/-- **A number is closed** that is no end of a pipe, and its entry is not in use. -/
theorem Held.release (h : Held owner ep ends held) {n : Nat}
    (hown : ∀ idx e, owner n ≠ some (.pipe idx e)) (hother : ∀ m, m ≠ n → ep'.fds m = ep.fds m)
    (hgone : ¬ InUse ep' n) (hself : (ep'.fds n).fd = n ∨ (ep'.fds n).fd ≤ 0) :
    Held (Function.update owner n none) ep' ends held := by
  refine h.update n none hother (fun idx => ?_) hself fun idx e he => ?_
  · constructor
    · intro ho
      cases ho
    · rintro ⟨huse, _⟩
      exact absurd huse hgone
  · exact Or.inr ⟨he, rfl, h.apart he (hown idx e)⟩

/-- **An end of a pipe is closed.** -/
theorem Held.shutEnd (h : Held owner ep ends held) {idx : Int} {e : PipeEnd} (he : held idx e)
    (hends : ∀ j e', held' j e' → held j e' ∧ ¬ (j = idx ∧ e' = e)) :
    Held (Function.update owner (ends idx e) none) ep ends held' := by
  have hown := (h.pipes idx e he).2
  refine h.update _ none (fun _ _ => rfl) (fun j => ?_) (h.self _) fun j e' he' => ?_
  · constructor
    · intro ho
      cases ho
    · rintro ⟨huse, _⟩
      cases hown.symm.trans (h.owned huse)
  · right
    rcases hends j e' he' with ⟨hheld, hne⟩
    refine ⟨hheld, rfl, h.apart hheld fun hpipe => hne ?_⟩
    cases hown.symm.trans hpipe
    exact ⟨rfl, rfl⟩

/-- **An end of a pipe is opened.** -/
theorem Held.openEnd (h : Held owner ep ends held) {n : Nat} (hpos : 0 < n)
    (hfree : owner n = none) (idx : Int) (e : PipeEnd)
    (hends : ∀ j e', held' j e' → held j e' ∧ ¬ (j = idx ∧ e' = e) ∨ j = idx ∧ e' = e) :
    Held (Function.update owner n (some (.pipe idx e))) ep
      (Function.update ends idx (Function.update (ends idx) e n)) held' := by
  refine h.update n _ (fun _ _ => rfl) (fun j => ?_) (h.self n) fun j e' he' => ?_
  · constructor
    · intro ho
      cases ho
    · rintro ⟨huse, _⟩
      cases hfree.symm.trans (h.owned huse)
  · rcases hends j e' he' with ⟨hheld, hne⟩ | ⟨rfl, rfl⟩
    · right
      refine ⟨hheld, ?_, h.apart hheld fun hpipe => ?_⟩
      · by_cases hj : j = idx
        · subst hj
          rw [Function.update_self, Function.update_of_ne fun heq => hne ⟨rfl, heq⟩]
        · rw [Function.update_of_ne hj]
      · cases hfree.symm.trans hpipe
    · left
      rw [Function.update_self, Function.update_self]
      exact ⟨hpos, rfl, rfl⟩

/-! ## Steps keep the invariant -/

/-- The stricter condition is one. -/
theorem NoneStale.noneReopened {l : RestartLbl} {s : Master} (h : NoneStale l s) :
    NoneReopened l s := by
  cases l with
  | entry => exact fun idx i hphase hle hdown hnull => (h idx i hphase hle hdown hnull).elim
  | close | rqInit | sqInit => exact h
  | _ => trivial

/-- A step within a phase, of a worker's child neither the end nor the beginning. -/
theorem MasterInv.within {s t : Master} (h : MasterInv s) (hphase : t.phase = s.phase)
    (hchld : t.chld = s.chld) (hheld : Held t.owner t.ep t.ends s.holds) : MasterInv t := by
  have hholds : t.holds = s.holds := by
    unfold Master.holds
    rw [hphase, hchld]
  constructor
  · rw [hholds]
    exact hheld
  · rw [hphase, hchld]
    exact h.phase

/-- Between starts one end of each live worker is held. -/
theorem holds_idle {s : Master} (hphase : s.phase = .idle) {idx : Int} {e : PipeEnd} :
    s.holds idx e ↔ s.chld idx = .alive ∧ e = .rqWrite := by
  unfold Master.holds
  rw [hphase]

/-- In the loop also that of the worker which is restarted. -/
theorem holds_loop {s : Master} {j : Int} {i : Nat} (hphase : s.phase = .loop j i) {idx : Int}
    {e : PipeEnd} : s.holds idx e ↔ (s.chld idx = .alive ∨ idx = j) ∧ e = .rqWrite := by
  unfold Master.holds
  rw [hphase]

/-- And behind it what the start has opened so far. -/
theorem holds_work {s : Master} {j : Int} {stage : Stage} (hphase : s.phase = .work j stage)
    {idx : Int} {e : PipeEnd} :
    s.holds idx e ↔ s.chld idx = .alive ∧ e = .rqWrite ∨ idx = j ∧ stage.holds e := by
  unfold Master.holds
  rw [hphase]

/-- A child that is gone leaves the others alive. -/
theorem alive_of_gone {chld : Int → Chld} {idx j : Int}
    (h : Function.update chld idx .gone j = .alive) : chld j = .alive := by
  by_cases hj : j = idx
  · subst hj
    rw [Function.update_self] at h
    cases h
  · rw [Function.update_of_ne hj] at h
    exact h

/-- A new descriptor is registered, or not for want of room in the interest list. -/
theorem Held.add {s : Master} (h : Held s.owner s.ep s.ends held) {fd : Nat} (hfree : s.Free fd)
    (ctl : Bool) (idx : Int) {type : FdType} (htype : type ≠ .null) (addr : FdAddr) :
    Held (s.register ctl fd idx type addr).owner (s.register ctl fd idx type addr).ep s.ends
      held := by
  cases ctl with
  | false => exact h.anon (Or.inl hfree.2) (Or.inr rfl)
  | true =>
    refine h.register hfree.1 idx htype addr fun j e he => ⟨he, h.apart he fun hpipe => ?_⟩
    cases hfree.2.symm.trans hpipe

/-- **`do_fd_close`**, where its entry is in use or its number is not open. -/
theorem Held.close (h : Held owner ep ends held) {fd : Nat} (hclosed : Closed fd ep ep')
    (huse : owner fd ≠ none → InUse ep fd) :
    Held (Function.update owner fd none) ep' ends held := by
  rcases hclosed.self with ⟨flag, hself⟩
  refine h.release (fun idx e hpipe => ?_) hclosed.other ?_ ?_
  · have hreg := h.owned (huse (by rw [hpipe]; simp))
    cases hpipe.symm.trans hreg
  · rintro ⟨_, htype, _⟩
    rw [hself] at htype
    exact htype rfl
  · rw [hself]
    exact h.self fd

/-- A list operation is of no concern. -/
theorem Held.reflag (h : Held owner ep ends held) {fd : Nat} (hre : Reflagged fd ep ep') :
    Held owner ep' ends held := by
  have hsame : ∀ n, (ep'.fds n).type = (ep.fds n).type ∧ (ep'.fds n).fd = (ep.fds n).fd ∧
      (ep'.fds n).idx = (ep.fds n).idx := by
    intro n
    by_cases hn : n = fd
    · subst hn
      rcases hre.self with ⟨flag, hself⟩
      rw [hself]
      exact ⟨rfl, rfl, rfl⟩
    · rw [hre.other n hn]
      exact ⟨rfl, rfl, rfl⟩
  constructor
  · intro n idx
    rw [h.reg n idx]
    unfold InUse Registered
    rw [(hsame n).1, (hsame n).2.1, (hsame n).2.2]
  · intro n
    rw [(hsame n).2.1]
    exact h.self n
  · exact h.pipes

/-- **The steps outside of `start_work`.** -/
theorem mainStep_inv {l : RestartLbl} {s t : Master} (h : MasterInv s) (hphase : s.phase = .idle)
    (hl : NoneReopened l s) (hstep : mainStep l s = some t) : MasterInv t := by
  cases l with
  | add ctl fd idx type addr =>
    simp only [mainStep, Option.ite_none_right_eq_some] at hstep
    rcases hstep with ⟨⟨hfree, htype⟩, heq⟩
    rw [← Option.some.inj heq]
    exact h.within rfl rfl (h.held.add hfree ctl idx htype addr)
  | read fd full =>
    rcases Option.map_eq_some_iff.mp hstep with ⟨ep', hread, heq⟩
    have hre : Reflagged fd s.ep ep' := by
      cases full with
      | true => exact doAddToReadlist_reflags hread
      | false => exact doDelFromReadlist_reflags hread
    rw [← heq]
    exact h.within rfl rfl (h.held.reflag hre)
  | close fd =>
    simp only [mainStep] at hstep
    by_cases hnull : (s.ep.fds fd).type = .null
    · rw [if_pos hnull] at hstep
      rw [← Option.some.inj hstep]
      exact h
    · rw [if_neg hnull] at hstep
      rcases Option.map_eq_some_iff.mp hstep with ⟨ep', hclose, heq⟩
      rw [← heq]
      -- the condition: what is closed is the table's own
      exact h.within rfl rfl (h.held.close (closeSlot_closed hclose) (hl hnull))
  | start idx =>
    simp only [mainStep, Option.ite_none_right_eq_some] at hstep
    rcases hstep with ⟨_, heq⟩
    rw [← Option.some.inj heq]
    constructor
    · refine h.held.mono fun j e he => (holds_idle hphase).mpr ?_
      rcases (holds_work rfl).mp he with ⟨halive, hwrite⟩ | ⟨_, hno⟩
      · exact ⟨alive_of_gone halive, hwrite⟩
      · exact hno.elim
    · show Function.update s.chld idx .gone idx ≠ .alive
      rw [Function.update_self]
      simp
  | stop idx =>
    simp only [mainStep, Option.ite_none_right_eq_some] at hstep
    rcases hstep with ⟨halive, heq⟩
    rw [← Option.some.inj heq]
    constructor
    · refine h.held.mono fun j e he => (holds_idle hphase).mpr ?_
      rcases (holds_loop rfl).mp he with ⟨hlive | hj, hwrite⟩
      · exact ⟨alive_of_gone hlive, hwrite⟩
      · -- the worker that has stopped: its end is held until the loop is through
        exact ⟨hj ▸ halive, hwrite⟩
    · show Function.update s.chld idx .gone idx ≠ .alive
      rw [Function.update_self]
      simp
  | _ => cases hstep

/-- The entry that the loop closes is the number's own. -/
theorem Held.downed (h : Held owner ep ends held) {i : Nat} {idx : Int}
    (hdown : (ep.fds i).Downed idx) : (ep.fds i).fd = i ∧ 0 < i := by
  have hpos := hdown.2
  rcases h.self i with heq | hle
  · exact ⟨heq, by omega⟩
  · omega

/-- **An iteration of the loop**, that meets no closed entry whose number is open. -/
theorem entryStep_inv {s : Master} (h : MasterInv s) {idx : Int} {i : Nat}
    (hphase : s.phase = .loop idx i) (hl : NoneReopened .entry s) :
    MasterInv (entryStep idx i s) := by
  have hchild : s.chld idx ≠ .alive := by
    have hphase' := h.phase
    rw [hphase] at hphase'
    exact hphase'
  have hkept : ∀ t : Master, t.phase = .loop idx (i + 1) → t.chld = s.chld →
      ∀ j e, t.holds j e → s.holds j e := by
    intro t hnext hchld j e he
    rw [holds_loop hnext, hchld] at he
    exact (holds_loop hphase).mpr he
  unfold entryStep
  by_cases hle : (i : Int) ≤ s.ep.maxfd
  · rw [if_pos hle]
    by_cases hdown : (s.ep.fds i).Downed idx
    · simp only
      rw [if_pos hdown]
      rcases h.held.downed hdown with ⟨hfd, hpos⟩
      have hnum : (s.ep.fds i).fd.toNat = i := by omega
      constructor
      · simp only [hnum]
        refine Held.mono (h.held.release (fun j e hpipe => ?_)
          (fun m hm => setFd_other s.ep hm _) ?_ ?_) (hkept _ rfl rfl)
        · -- no pipe has it: an entry in use is registered, a closed one is not open
          by_cases hnull : (s.ep.fds i).type = .null
          · cases (hl idx i hphase hle hdown hnull).symm.trans hpipe
          · have hreg := h.held.owned ⟨hpos, hnull, hfd⟩
            cases hpipe.symm.trans hreg
        · rintro ⟨_, _, hgone⟩
          rw [setFd_self] at hgone
          simp only at hgone
          omega
        · right
          rw [setFd_self]
          simp
      · exact hchild
    · simp only
      rw [if_neg hdown]
      exact ⟨h.held.mono (hkept _ rfl rfl), hchild⟩
  · -- the loop is through: `start_work` goes on with what it holds
    rw [if_neg hle]
    refine ⟨h.held.mono fun j e he => (holds_loop hphase).mpr ?_, hchild⟩
    rcases (holds_work rfl).mp he with ⟨halive, hwrite⟩ | ⟨hj, hwrite⟩
    · exact ⟨Or.inl halive, hwrite⟩
    · exact ⟨Or.inr hj, hwrite⟩

/-- **A successful `pipe`.** -/
theorem Held.pipe {s t : Master} (h : Held s.owner s.ep s.ends held) {idx : Int} {r w : PipeEnd}
    {fds : Option (Nat × Nat)} (hfds : fds ≠ none) (hpipe : s.pipe idx r w fds = some t)
    (hends : ∀ j e, held' j e → held j e ∧ ¬ (j = idx ∧ (e = r ∨ e = w)) ∨
      j = idx ∧ (e = r ∨ e = w)) :
    Held t.owner t.ep t.ends held' ∧ t.chld = s.chld := by
  rcases Option.ne_none_iff_exists'.mp hfds with ⟨⟨m, n⟩, heq⟩
  subst heq
  simp only [Master.pipe, Option.ite_none_right_eq_some] at hpipe
  rcases hpipe with ⟨⟨hm, hn, hmn⟩, heq⟩
  rw [← Option.some.inj heq]
  refine ⟨?_, rfl⟩
  -- first the read end, with what is held of the others
  have hread : Held (Function.update s.owner m (some (.pipe idx r))) s.ep
      (Function.update s.ends idx (Function.update (s.ends idx) r m))
      fun j e => held' j e ∧ ¬ (j = idx ∧ e = w) := by
    refine h.openEnd hm.1 hm.2 idx r fun j e he => ?_
    rcases hends j e he.1 with ⟨hheld, hno⟩ | ⟨hj, hr | hw⟩
    · exact Or.inl ⟨hheld, fun hjr => hno ⟨hjr.1, Or.inl hjr.2⟩⟩
    · exact Or.inr ⟨hj, hr⟩
    · exact absurd ⟨hj, hw⟩ he.2
  have hfree : Function.update s.owner m (some (.pipe idx r)) n = none := by
    rw [Function.update_of_ne (Ne.symm hmn)]
    exact hn.2
  have hends' : ∀ j e, held' j e →
      (held' j e ∧ ¬ (j = idx ∧ e = w)) ∧ ¬ (j = idx ∧ e = w) ∨ j = idx ∧ e = w := by
    intro j e he
    by_cases hjw : j = idx ∧ e = w
    · exact Or.inr hjw
    · exact Or.inl ⟨⟨he, hjw⟩, hjw⟩
  have hwrite := hread.openEnd hn.1 hfree idx w hends'
  rw [Function.update_self, Function.update_idem] at hwrite
  exact hwrite

/-- What is held when `start_work` stands behind its loop. -/
def Master.heldAt (s : Master) (idx : Int) (stage : Stage) (j : Int) (e : PipeEnd) : Prop :=
  s.chld j = .alive ∧ e = .rqWrite ∨ j = idx ∧ stage.holds e

/-- `start_work` goes on. -/
theorem MasterInv.next {s t : Master} {idx : Int} {stage : Stage} (hchild : s.chld idx ≠ .alive)
    (hheld : Held t.owner t.ep t.ends (s.heldAt idx stage))
    (hphase : t.phase = .work idx stage) (hchld : t.chld = s.chld) : MasterInv t := by
  constructor
  · refine hheld.mono fun j e he => ?_
    rw [holds_work hphase, hchld] at he
    exact he
  · rw [hphase, hchld]
    exact hchild

/-- `start_work` ends. -/
theorem MasterInv.ended {s t : Master} {idx : Int} {stage : Stage}
    (hheld : Held t.owner t.ep t.ends (s.heldAt idx stage)) (hphase : t.phase = .idle)
    (hchld : t.chld = s.chld) : MasterInv t := by
  constructor
  · refine hheld.mono fun j e he => ?_
    rw [holds_idle hphase, hchld] at he
    exact Or.inl he
  · rw [hphase]
    trivial

/-- A call whose success `start_work` goes on from, and whose failure ends it. -/
theorem MasterInv.goesOn {s t : Master} {idx : Int} {stage : Stage} (hchild : s.chld idx ≠ .alive)
    (hheld : Held t.owner t.ep t.ends (s.heldAt idx stage)) (hchld : t.chld = s.chld) (ok : Bool) :
    MasterInv { t with phase := if ok then .work idx stage else .idle } := by
  cases ok with
  | true => exact MasterInv.next hchild hheld rfl hchld
  | false => exact MasterInv.ended hheld rfl hchld

/-- **`master_listen` registers the read end of `sq`**: it is not one of those that are
held from then on. -/
theorem MasterInv.addPipe {s : Master} {idx : Int} (hchild : s.chld idx ≠ .alive)
    (hheld : Held s.owner s.ep s.ends (s.heldAt idx .addPipe)) :
    MasterInv { s.register true (s.ends idx .sqRead) idx .pipe ⟨0, 0⟩ with
      phase := .work idx .closeRq } := by
  rcases hheld.pipes idx .sqRead (Or.inr ⟨rfl, trivial⟩) with ⟨hpos, hown⟩
  refine MasterInv.next hchild (hheld.register hpos idx (by simp) ⟨0, 0⟩ fun j e he => ?_) rfl rfl
  have hother : ¬ (j = idx ∧ e = .sqRead) := by
    rintro ⟨hj, heq⟩
    rcases he with ⟨halive, _⟩ | ⟨_, hne⟩
    · exact hchild (hj ▸ halive)
    · exact hne heq
  have hwas : s.heldAt idx .addPipe j e := he.imp_right fun hmine => ⟨hmine.1, trivial⟩
  refine ⟨hwas, hheld.apart hwas fun hpipe => hother ?_⟩
  cases hown.symm.trans hpipe
  exact ⟨rfl, rfl⟩

/-- **The calls of `start_work` behind its loop.** -/
theorem workStep_inv {l : RestartLbl} {s t : Master} (h : MasterInv s) {idx : Int} {stage : Stage}
    (hphase : s.phase = .work idx stage) (hl : NoneReopened l s)
    (hstep : workStep idx stage l s = some t) : MasterInv t := by
  have hchild : s.chld idx ≠ .alive := by
    have hphase' := h.phase
    rw [hphase] at hphase'
    exact hphase'
  have hheld : Held s.owner s.ep s.ends (s.heldAt idx stage) :=
    h.held.mono fun j e he => (holds_work hphase).mpr he
  -- this worker is not one of those with a child
  have hself : ∀ {j e}, s.chld j = .alive ∧ e = PipeEnd.rqWrite → j ≠ idx :=
    fun hj heq => hchild (heq ▸ hj.1)
  cases stage with
  | drop =>
    cases l with
    | drop =>
      rw [← Option.some.inj hstep]
      refine MasterInv.next hchild (hheld.shutEnd (Or.inr ⟨rfl, rfl⟩) fun j e he => ?_) rfl rfl
      rcases he with hj | ⟨_, hno⟩
      · exact ⟨Or.inl hj, fun heq => hself hj heq.1⟩
      · exact hno.elim
    | _ => cases hstep
  | rqInit =>
    cases l with
    | rqInit fds mapped =>
      rcases Option.map_eq_some_iff.mp hstep with ⟨m, hpipe, heq⟩
      have hnew : Held m.owner m.ep m.ends (s.heldAt idx .sqInit) ∧ m.chld = s.chld := by
        refine hheld.pipe hl hpipe fun j e he => ?_
        rcases he with hj | hmine
        · exact Or.inl ⟨Or.inl hj, fun heq => hself hj heq.1⟩
        · exact Or.inr hmine
      rw [← heq]
      exact MasterInv.goesOn hchild hnew.1 hnew.2 mapped
    | _ => cases hstep
  | sqInit =>
    cases l with
    | sqInit fds mapped =>
      rcases Option.map_eq_some_iff.mp hstep with ⟨m, hpipe, heq⟩
      have hnew : Held m.owner m.ep m.ends (s.heldAt idx .listen) ∧ m.chld = s.chld := by
        refine hheld.pipe hl hpipe fun j e he => ?_
        rcases he with hj | ⟨hj, _⟩
        · exact Or.inl ⟨Or.inl hj, fun heq => hself hj heq.1⟩
        · -- the ends of `rq` are there, those of `sq` are new
          cases e with
          | rqRead => exact Or.inl ⟨Or.inr ⟨hj, Or.inl rfl⟩, by simp⟩
          | rqWrite => exact Or.inl ⟨Or.inr ⟨hj, Or.inr rfl⟩, by simp⟩
          | sqRead => exact Or.inr ⟨hj, Or.inl rfl⟩
          | sqWrite => exact Or.inr ⟨hj, Or.inr rfl⟩
      rw [← heq]
      exact MasterInv.goesOn hchild hnew.1 hnew.2 mapped
    | _ => cases hstep
  | listen =>
    cases l with
    | listen fd ctl addr =>
      cases fd with
      | none =>
        rw [← Option.some.inj hstep]
        exact MasterInv.ended hheld rfl rfl
      | some fd =>
        simp only [workStep, Option.ite_none_right_eq_some] at hstep
        rcases hstep with ⟨hfree, heq⟩
        rw [← Option.some.inj heq]
        have hnew := hheld.add hfree ctl idx (show FdType.listen ≠ .null by simp) addr
        -- the pipe's ends are held at either stage
        have hall : Held _ _ s.ends (s.heldAt idx .addPipe) := hnew.mono fun _ _ he => he
        exact MasterInv.goesOn hchild hall rfl ctl
    | _ => cases hstep
  | addPipe =>
    cases l with
    | addPipe ctl =>
      cases ctl with
      | false =>
        rw [← Option.some.inj hstep]
        exact MasterInv.ended hheld rfl rfl
      | true =>
        simp only [workStep, Option.ite_none_right_eq_some] at hstep
        rcases hstep with ⟨_, heq⟩
        rw [← Option.some.inj heq]
        exact MasterInv.addPipe hchild hheld
    | _ => cases hstep
  | closeRq =>
    cases l with
    | closeRq =>
      rw [← Option.some.inj hstep]
      refine MasterInv.next hchild (hheld.shutEnd (Or.inr ⟨rfl, by simp [Stage.holds]⟩)
        fun j e he => ?_) rfl rfl
      rcases he with hj | ⟨hj, hwrite | hwrite⟩
      · exact ⟨Or.inl hj, fun heq => hself hj heq.1⟩
      · exact ⟨Or.inr ⟨hj, by simp [Stage.holds, hwrite]⟩, fun heq => by simp [hwrite] at heq⟩
      · exact ⟨Or.inr ⟨hj, by simp [Stage.holds, hwrite]⟩, fun heq => by simp [hwrite] at heq⟩
    | _ => cases hstep
  | closeSq =>
    cases l with
    | closeSq =>
      rw [← Option.some.inj hstep]
      refine ⟨hheld.shutEnd (Or.inr ⟨rfl, Or.inr rfl⟩) fun j e he => ?_, trivial⟩
      -- the worker has a child again
      rcases (holds_idle rfl).mp he with ⟨halive, hwrite⟩
      by_cases hj : j = idx
      · exact ⟨Or.inr ⟨hj, Or.inl hwrite⟩, fun heq => by simp [hwrite] at heq⟩
      · simp only [Function.update_of_ne hj] at halive
        exact ⟨Or.inl ⟨halive, hwrite⟩, fun heq => hj heq.1⟩
    | _ => cases hstep

/-- The steps of the master itself, apart from log files. -/
theorem ownStep_inv {l : RestartLbl} {s t : Master} (h : MasterInv s) (hl : NoneReopened l s)
    (hstep : ownStep l s = some t) : MasterInv t := by
  unfold ownStep at hstep
  cases hphase : s.phase with
  | idle =>
    rw [hphase] at hstep
    exact mainStep_inv h hphase hl hstep
  | loop idx i =>
    rw [hphase] at hstep
    cases l with
    | entry =>
      rw [← Option.some.inj hstep]
      exact entryStep_inv h hphase hl
    | _ => cases hstep
  | work idx stage =>
    rw [hphase] at hstep
    exact workStep_inv h hphase hl hstep

/-- **One step** that meets the condition keeps the invariant. -/
theorem restartStep_inv {l : RestartLbl} {s t : Master} (h : MasterInv s)
    (hl : NoneReopened l s) (hstep : restartStep l s = some t) : MasterInv t := by
  cases l with
  | opens n =>
    simp only [restartStep, Option.ite_none_right_eq_some] at hstep
    rcases hstep with ⟨hfree, heq⟩
    rw [← Option.some.inj heq]
    exact h.within rfl rfl (h.held.anon (Or.inl hfree.2) (Or.inr rfl))
  | drops n =>
    simp only [restartStep, Option.ite_none_right_eq_some] at hstep
    rcases hstep with ⟨hother, heq⟩
    rw [← Option.some.inj heq]
    exact h.within rfl rfl (h.held.anon (Or.inr hother) (Or.inl rfl))
  | _ => exact ownStep_inv h hl hstep

/-! ## Whose numbers `start_work` closes -/

/-- A step of `start_work` closes an entry's number in its loop, and one of the ends
that the worker holds behind it. -/
theorem shutBy_cases {l : RestartLbl} {s : Master} {n : Nat} {o : Owner}
    (h : shutBy l s = some (n, o)) :
    (l = .entry ∧ ∃ idx i, s.phase = .loop idx i ∧ (i : Int) ≤ s.ep.maxfd ∧
      (s.ep.fds i).Downed idx ∧ n = (s.ep.fds i).fd.toNat ∧ o = .reg idx) ∨
    ∃ idx e, s.holds idx e ∧ n = s.ends idx e ∧ o = .pipe idx e := by
  have hend : ∀ {idx stage e}, s.phase = .work idx stage → Stage.holds stage e →
      some (s.ends idx e, Owner.pipe idx e) = some (n, o) →
      ∃ idx e, s.holds idx e ∧ n = s.ends idx e ∧ o = .pipe idx e := by
    intro idx stage e hphase he heq
    cases heq
    exact ⟨idx, e, (holds_work hphase).mpr (Or.inr ⟨rfl, he⟩), rfl, rfl⟩
  unfold shutBy at h
  split at h
  · split at h
    · next idx i hphase =>
      simp only [Option.ite_none_right_eq_some] at h
      rcases h with ⟨⟨hle, hdown⟩, heq⟩
      cases heq
      exact Or.inl ⟨rfl, idx, i, hphase, hle, hdown, rfl, rfl⟩
    · cases h
  · split at h
    · next hphase => exact Or.inr (hend hphase rfl h)
    · cases h
  · split at h
    · next hphase => exact Or.inr (hend hphase (by simp [Stage.holds]) h)
    · cases h
  · split at h
    · next hphase => exact Or.inr (hend hphase (Or.inr rfl) h)
    · cases h
  · cases h

/-- **An entry is closed rightly exactly when** it has not been closed before. -/
theorem MasterInv.entry_iff {s : Master} (h : MasterInv s) {idx : Int} {i : Nat}
    (hdown : (s.ep.fds i).Downed idx) :
    s.owner (s.ep.fds i).fd.toNat = some (.reg idx) ↔ (s.ep.fds i).type ≠ .null := by
  rcases h.held.downed hdown with ⟨hfd, hpos⟩
  have hnum : (s.ep.fds i).fd.toNat = i := by omega
  rw [hnum, h.held.reg i idx]
  constructor
  · rintro ⟨huse, _⟩
    exact huse.2.1
  · intro htype
    exact ⟨⟨hpos, htype, hfd⟩, hdown.1⟩

/-- The ends of its pipes are the worker's own. -/
theorem MasterInv.end_own {s : Master} (h : MasterInv s) {idx : Int} {e : PipeEnd}
    (he : s.holds idx e) : s.owner (s.ends idx e) = some (.pipe idx e) :=
  (h.held.pipes idx e he).2

/-- With no stale entry the loop closes its own numbers. -/
theorem closesOwn_of_noneStale {l : RestartLbl} {s : Master} (h : MasterInv s)
    (hl : NoneStale l s) : ClosesOwn l s := by
  intro n o hshut
  rcases shutBy_cases hshut with ⟨hentry, idx, i, hphase, hle, hdown, hn, ho⟩ | ⟨idx, e, he, hn, ho⟩
  · rw [hn, ho, h.entry_iff hdown]
    rw [hentry] at hl
    exact hl idx i hphase hle hdown
  · rw [hn, ho]
    exact h.end_own he

/-- With none whose number is open again it closes nothing of others. -/
theorem closesNoOther_of_noneReopened {l : RestartLbl} {s : Master} (h : MasterInv s)
    (hl : NoneReopened l s) : ClosesNoOther l s := by
  intro n o hshut
  rcases shutBy_cases hshut with ⟨hentry, idx, i, hphase, hle, hdown, hn, ho⟩ | ⟨idx, e, he, hn, ho⟩
  · rw [hn, ho]
    rw [hentry] at hl
    by_cases hnull : (s.ep.fds i).type = .null
    · left
      rcases h.held.downed hdown with ⟨hfd, _⟩
      have hnum : (s.ep.fds i).fd.toNat = i := by omega
      rw [hnum]
      exact hl idx i hphase hle hdown hnull
    · exact Or.inr ((h.entry_iff hdown).mpr hnull)
  · rw [hn, ho]
    exact Or.inr (h.end_own he)

/-- In the loop, what is to be closed is the entry's number. -/
theorem shutBy_entry {s : Master} {idx : Int} {i : Nat} (hphase : s.phase = .loop idx i)
    (hle : (i : Int) ≤ s.ep.maxfd) (hdown : (s.ep.fds i).Downed idx) :
    shutBy .entry s = some ((s.ep.fds i).fd.toNat, .reg idx) := by
  unfold shutBy
  simp only [hphase]
  exact if_pos ⟨hle, hdown⟩

/-- **The loop closes its worker's numbers only exactly when** the entry at hand has
not been closed before, or its number is not open. -/
theorem MasterInv.loop_iff {s : Master} (h : MasterInv s) :
    (ClosesNoOther .entry s ↔ NoneReopened .entry s) ∧
      (ClosesOwn .entry s ↔ NoneStale .entry s) := by
  constructor
  · constructor
    · intro hcloses idx i hphase hle hdown hnull
      rcases h.held.downed hdown with ⟨hfd, _⟩
      have hnum : (s.ep.fds i).fd.toNat = i := by omega
      rcases hcloses _ _ (shutBy_entry hphase hle hdown) with hnone | hown
      · rw [hnum] at hnone
        exact hnone
      · exact absurd hnull ((h.entry_iff hdown).mp hown)
    · exact closesNoOther_of_noneReopened h
  · constructor
    · intro hcloses idx i hphase hle hdown hnull
      have hown := hcloses _ _ (shutBy_entry hphase hle hdown)
      exact (h.entry_iff hdown).mp hown hnull
    · exact closesOwn_of_noneStale h

/-- **The iterations are the loop**: taken one after another they leave the table that
`closeDowned` computes. -/
theorem entries_closeDowned {s : Master} {idx : Int} (hphase : s.phase = .loop idx 0) :
    ∀ k : Nat, (k : Int) ≤ s.ep.maxfd + 1 →
      ∃ t, exec restartStep (List.replicate k .entry) s = some t ∧ t.phase = .loop idx k ∧
        t.ep = (closeDowned idx k s.ep).1 := by
  intro k
  induction k with
  | zero =>
    intro _
    exact ⟨s, rfl, hphase, rfl⟩
  | succ k ih =>
    intro hk
    rcases ih (by omega) with ⟨m, hrun, hm, hep⟩
    have hle : (k : Int) ≤ m.ep.maxfd := by
      rw [hep, (closeDowned_frame idx s.ep k).2.1]
      omega
    have hstep : restartStep .entry m = some (entryStep idx k m) := by
      show ownStep .entry m = _
      unfold ownStep
      rw [hm]
    refine ⟨entryStep idx k m, ?_, ?_, ?_⟩
    · rw [List.replicate_succ']
      exact exec_concat hrun hstep
    · unfold entryStep
      rw [if_pos hle]
      simp only
      split
      · rfl
      · rfl
    · unfold entryStep closeDowned
      rw [if_pos hle]
      simp only
      rw [← hep]
      split
      · rfl
      · rfl

/-! ## Whole runs -/

/-- **What `start_work` closes, in any run.** As long as its loop meets no entry that
has been closed before while its number is open again, `do_fd_close` is not called for
an entry left behind by a restart whose number is open again, and no `pipe` fails,
`start_work` closes no descriptor but its worker's; and only open ones, if it meets no
closed entry at all. Behind such a run its loop closes its own exactly when it meets
none. -/
theorem restart_closes_own (ls : List RestartLbl) :
    (Along restartStep NoneReopened ls masterInit →
      Along restartStep ClosesNoOther ls masterInit) ∧
    (Along restartStep NoneStale ls masterInit →
      Along restartStep ClosesOwn ls masterInit) ∧
    ∀ s, Along restartStep NoneReopened ls masterInit →
      exec restartStep ls masterInit = some s →
      (ClosesNoOther .entry s ↔ NoneReopened .entry s) ∧
        (ClosesOwn .entry s ↔ NoneStale .entry s) := by
  refine ⟨fun hls => ?_, fun hls => ?_, fun s hls hrun => ?_⟩
  · refine along_of_along MasterInv (fun l s t hs hl hstep => ?_) masterInit_inv hls
    exact ⟨closesNoOther_of_noneReopened hs hl, restartStep_inv hs hl hstep⟩
  · refine along_of_along MasterInv (fun l s t hs hl hstep => ?_) masterInit_inv hls
    exact ⟨closesOwn_of_noneStale hs hl, restartStep_inv hs hl.noneReopened hstep⟩
  · have hinv : MasterInv s :=
      exec_invariant MasterInv (fun l s t hs hl => restartStep_inv hs hl) masterInit_inv hls hrun
    exact hinv.loop_iff

/-- `start_work`, or `main`, from `master_mq_create` on. -/
def goesUp (rq sq : Nat × Nat) (listenfd : Nat) : List RestartLbl :=
  [.rqInit (some rq) true, .sqInit (some sq) true, .listen (some listenfd) true ⟨0, 0⟩,
    .addPipe true, .closeRq, .closeSq]

/-- Two files are open while two workers are started, and closed after that. Two clients
of worker 0 get their numbers, 3 and 4, and leave. Worker 1 stops: its new `rq` gets the
pipe 3, 4. Then worker 0 stops, and the loop comes to entry 4. -/
def pipeReused : List RestartLbl :=
  [.opens 3, .opens 4, .start 0] ++ goesUp (5, 6) (7, 8) 9 ++
  [.start 1] ++ goesUp (5, 8) (10, 11) 12 ++
  [.drops 3, .drops 4, .add true 3 0 .cli ⟨0, 0⟩, .add true 4 0 .cli ⟨0, 0⟩, .close 3, .close 4,
    .stop 1] ++ List.replicate 14 .entry ++ [.drop] ++ goesUp (3, 4) (5, 8) 10 ++
  [.stop 0] ++ List.replicate 4 .entry

/-- The next iteration closes the end that the master notifies worker 1 by. -/
theorem pipeReused_closes_other :
    ¬ ∀ ls, Along restartStep ClosesNoOther ls masterInit := by
  intro hclaim
  have hsome : (exec restartStep pipeReused masterInit).isSome := by decide +kernel
  have hfacts : ∀ s ∈ exec restartStep pipeReused masterInit,
      (restartStep .entry s).isSome ∧ shutBy .entry s = some (4, .reg 0) ∧
        s.owner 4 = some (.pipe 1 .rqWrite) := by
    decide +kernel
  rcases Option.isSome_iff_exists.mp hsome with ⟨s, hrun⟩
  rcases hfacts s hrun with ⟨hnext, hshut, hown⟩
  rcases Option.isSome_iff_exists.mp hnext with ⟨t, hstep⟩
  have hcloses := along_last (hclaim (pipeReused ++ [.entry])) hrun hstep
  rcases hcloses 4 (.reg 0) hshut with hnone | hreg
  · cases hown.symm.trans hnone
  · cases hown.symm.trans hreg

end SServer.Table
