import SServer.Table.Open

/-!
# SServer.Master.Accept — the backlog of a listening descriptor

A listening descriptor is watched edge-triggered, and when its event comes the master
calls `do_fd_open` until it returns `-1`. Here the backlog of one listening descriptor
stands beside `do_fd_open` as `SServer.Table.Open` has it, and each `accept` call of
`safe_tcp_accept` is a step: it may be interrupted, find nothing, fail for want of
descriptors, find a connection that is gone, or take the first that waits. Between two
steps connections arrive, and the worker pops blocks; and while the master is not at it,
it closes other descriptors and pushes other blocks.

Each connection that has arrived is accounted for: it waits, or what has become of it is
on record. The first result says when none is left waiting without an event, the second
that then, if nothing fails, the worker has been told of all of them in their order.

* `doFdClose_quiet`, `doFdOpen_cases`: what the two functions do to the table, seen from the
  backlog.
* `accStep_inv`: one step leaves every connection accounted for.
* `accStep_attended`, `accStep_told`: one step under the two conditions.
* `backlog_attended_iff`: the first result.
* `arrivals_told`: the second.

There is one listening descriptor and its worker. The length of the backlog is not bounded; what
the kernel drops when it is full never was an arrival. The second result asks that `accept` does
not answer `0`, which `do_fd_open` takes for the end.
-/

namespace SServer.Master

open SServer.Lib SServer.Queue SServer.Table SServer.Worker

/-! ## State -/

/-- What has become of a connection: its worker has been told of it under a number, or
could not be; it is open but not registered; closed at once, since it could not be made
non-blocking; gone before it was accepted; or reset with the listening descriptor. -/
inductive Fate where
  | told (n : Nat)
  | untold (n : Nat)
  | unregistered
  | shut
  | aborted
  | reset
deriving DecidableEq

/-- The master, the backlog with its event, and whether the master is in the loop of the
listening descriptor; all that has arrived, what has become of it as far as it has been
taken, and the blocks that the worker has popped. -/
structure AccSt where
  m : Mast
  backlog : List FdAddr
  event : Bool
  looping : Bool
  arrived : List FdAddr
  fates : List (FdAddr × Fate)
  popped : List Blk

/-- Nothing has arrived, and nobody is told. -/
def accInit (m : Mast) : AccSt :=
  { m := m, backlog := [], event := false, looping := false, arrived := [], fates := []
    popped := [] }

/-- The master listens on `lfd` for worker `idx`. -/
def Listens (lfd : Nat) (idx : Int) (ep : EpInfo) : Prop :=
  (ep.fds lfd).type = .listen ∧ (ep.fds lfd).fd = lfd ∧ (ep.fds lfd).idx = idx

instance (lfd : Nat) (idx : Int) (ep : EpInfo) : Decidable (Listens lfd idx ep) :=
  inferInstanceAs (Decidable (_ ∧ _))

/-! ## Steps -/

/-- What an `accept` returns, and for a new descriptor whether it can be made non-blocking
and whether `epoll_ctl` takes it. `EBADF`, when the descriptor has been closed, is like
`EAGAIN`. -/
inductive AcceptRes where
  | eintr
  | again
  | fails
  | aborted
  | got (n : Nat) (nonblock ctl : Bool)

/-- A connection arrives; the event of the descriptor is handled; an `accept`; the master
closes another descriptor, or pushes another block for some worker; the worker pops. -/
inductive AccLbl where
  | arrive (a : FdAddr)
  | wake
  | accept (res : AcceptRes)
  | close (fd : Nat)
  | push (i : Int) (b : MemBlock) (data : Mem)
  | pop

/-- Behind `do_fd_open` for the first connection `a`: `rest` waits on, or is reset when the
listening descriptor has been closed. -/
def AccSt.opened (lfd : Nat) (idx : Int) (s : AccSt) (a : FdAddr) (rest : List FdAddr) (n : Nat)
    (ctl : Bool) (r : Int) (m : Mast) : AccSt :=
  let s := { s with m := m, looping := decide (r ≠ -1) }
  if 0 < n ∧ ctl = true then
    if Listens lfd idx m.ep then { s with backlog := rest, fates := s.fates ++ [(a, .told n)] }
    else { s with
      backlog := []
      fates := s.fates ++ (a, .untold n) :: rest.map fun b => (b, .reset) }
  else { s with backlog := rest, fates := s.fates ++ [(a, .unregistered)] }

/-- An `accept` in `safe_tcp_accept`, which tries again when it is interrupted, and what
`do_fd_open` and its loop do behind it. -/
def acceptStep (lfd : Nat) (idx : Int) : AcceptRes → AccSt → Option AccSt
  | .eintr, s => some s
  | .again, s => if s.backlog = [] then some { s with looping := false } else none
  | .fails, s => some { s with looping := false }
  | .aborted, s =>
    match s.backlog with
    | [] => none
    | a :: rest =>
      some { s with backlog := rest, fates := s.fates ++ [(a, .aborted)], looping := false }
  | .got n nonblock ctl, s =>
    match s.backlog with
    | [] => none
    | a :: rest =>
      if Registered s.m.ep n then none
      else if nonblock = true then
        (doFdOpen lfd n a ctl s.m).map fun (r, m) => s.opened lfd idx a rest n ctl r m
      else
        some { s with backlog := rest, fates := s.fates ++ [(a, .shut)], looping := false }

/-- One step, for a backlog of `cap` connections. -/
def accStep (cap lfd : Nat) (idx : Int) : AccLbl → AccSt → Option AccSt
  | .arrive a, s =>
    if Listens lfd idx s.m.ep ∧ s.backlog.length < cap then
      some { s with backlog := s.backlog ++ [a], event := true, arrived := s.arrived ++ [a] }
    else none
  | .wake, s =>
    if s.looping = false ∧ s.event = true ∧ s.backlog ≠ [] then
      some { s with event := false, looping := true }
    else none
  | .accept res, s => if s.looping = true then acceptStep lfd idx res s else none
  | .close fd, s =>
    if s.looping = false ∧ fd ≠ lfd then (doFdClose fd s.m).map fun m => { s with m := m }
    else none
  | .push i b data, s =>
    if s.looping = false ∧ b.Pushable ∧ b.type ≠ MemBlockType.blkOpen.code then
      (mqPush (s.m.rq i) b data).map fun (_, q) =>
        { s with m := { s.m with rq := Function.update s.m.rq i q } }
    else none
  | .pop, s =>
    (mqGet (s.m.rq idx)).map fun (p, q) =>
      match p with
      | none => { s with m := { s.m with rq := Function.update s.m.rq idx q } }
      | some pos =>
        { s with
          m := { s.m with rq := Function.update s.m.rq idx (mqPop q) }
          popped := s.popped ++ [blkAt (q.mem.ptr pos)] }

/-! ## What is to hold -/

/-- While the master is not in its loop, no connection waits without an event to come. -/
def Attended (s : AccSt) : Prop := s.looping = false → s.backlog = [] ∨ s.event = true

/-- The condition: an `accept` whose failure ends the loop leaves nothing that waits, unless
something has arrived since the event was handled. -/
def EndsDrained : AccLbl → AccSt → Prop
  | .accept .fails, s => s.backlog = [] ∨ s.event = true
  | .accept .aborted, s | .accept (.got _ false _), s => s.backlog.tail = [] ∨ s.event = true
  | _, _ => True

/-- The stricter one: no connection is gone, each can be made non-blocking and registered,
and there is room for its `BLK_OPEN`. -/
def Welcomes (idx : Int) (l : AccLbl) (s : AccSt) : Prop :=
  EndsDrained l s ∧
    match l with
    | .accept .aborted => False
    | .accept (.got n nonblock ctl) =>
      0 < n ∧ nonblock = true ∧ ctl = true ∧ HasRoom (s.m.rq idx) (blkHeadLen + fdAddrLen)
    | _ => True

/-- The `BLK_OPEN` by which a worker has been told. -/
def tells (idx : Int) : FdAddr × Fate → Option Blk
  | (a, .told n) => some ((openBlk idx n).withData a.encode)
  | _ => none

/-- A block that tells of a connection. -/
def isOpen (b : Blk) : Bool := decide (b.head.type = MemBlockType.blkOpen.code)

/-- The invariant: all that has arrived is accounted for in its order, nothing waits at a
descriptor that is closed, and the worker has got, or will get from its ring, just the
`BLK_OPEN`s on record. -/
structure AccInv (lfd : Nat) (idx : Int) (s : AccSt) : Prop where
  accounted : s.arrived = s.fates.map (·.1) ++ s.backlog
  listens : Listens lfd idx s.m.ep ∨ s.backlog = []
  ring : ∃ bs, Rep (s.m.rq idx) bs ∧
    (s.popped ++ bs).filter isOpen = s.fates.filterMap (tells idx)

instance : ∀ l s, Decidable (EndsDrained l s)
  | .accept .fails, _ => inferInstanceAs (Decidable (_ ∨ _))
  | .accept .aborted, _ => inferInstanceAs (Decidable (_ ∨ _))
  | .accept (.got _ false _), _ => inferInstanceAs (Decidable (_ ∨ _))
  | .accept (.got _ true _), _ | .accept .eintr, _ | .accept .again, _ | .arrive _, _
  | .wake, _ | .close _, _ | .push _ _ _, _ | .pop, _ => isTrue trivial

instance (idx : Int) (l : AccLbl) (s : AccSt) : Decidable (Welcomes idx l s) := by
  unfold Welcomes
  split <;> infer_instance

/-- A listening descriptor with an empty ring. -/
theorem accInit_inv {m : Mast} {lfd : Nat} {idx : Int} (hlistens : Listens lfd idx m.ep)
    (hrep : Rep (m.rq idx) []) : AccInv lfd idx (accInit m) :=
  ⟨rfl, Or.inl hlistens, [], hrep, rfl⟩

/-! ## The ring of the worker -/

/-- What happens to a ring without a `BLK_OPEN`. -/
def QuietRing (q q' : MemQueue) : Prop :=
  ∀ bs, Rep q bs → ∃ bs', Rep q' bs' ∧ bs'.filter isOpen = bs.filter isOpen

/-- A ring that is left alone. -/
theorem QuietRing.refl (q : MemQueue) : QuietRing q q := fun bs h => ⟨bs, h, rfl⟩

/-- A block of another kind may be pushed or refused. -/
theorem mqPush_quiet {q q' : MemQueue} {b : MemBlock} (hb : b.Pushable)
    (htype : b.type ≠ MemBlockType.blkOpen.code) {data : Mem} {r : Int}
    (h : mqPush q b data = some (r, q')) : QuietRing q q' := by
  intro bs hrep
  rcases mqPush_spec hrep hb data with ⟨r', q'', hpush, _, hres⟩
  cases h.symm.trans hpush
  rcases hres with ⟨_, hrep'⟩ | ⟨_, hrep'⟩
  · refine ⟨bs ++ [b.withData data], hrep', ?_⟩
    have hclosed : isOpen (b.withData data) = false := decide_eq_false htype
    rw [List.filter_append, List.filter_cons_of_neg (by simp [hclosed]), List.filter_nil,
      List.append_nil]
  · exact ⟨bs, hrep', rfl⟩

variable {lfd : Nat} {idx : Int}

/-- **`do_fd_close`** leaves the other entries alone, and opens nothing. -/
theorem doFdClose_quiet (idx : Int) {fd : Nat} {m m' : Mast} (h : doFdClose fd m = some m') :
    (∀ k, k ≠ fd → m'.ep.fds k = m.ep.fds k) ∧ QuietRing (m.rq idx) (m'.rq idx) := by
  unfold doFdClose at h
  by_cases hnull : (m.ep.fds fd).type = .null
  · rw [if_pos hnull] at h
    rw [← Option.some.inj h]
    exact ⟨fun _ _ => rfl, QuietRing.refl _⟩
  · rw [if_neg hnull] at h
    simp only [Option.bind_eq_some_iff, Option.map_eq_some_iff] at h
    rcases h with ⟨⟨r, q⟩, hpush, ep, hep, heq⟩
    rw [← heq]
    refine ⟨(closeSlot_closed hep).other, ?_⟩
    by_cases hidx : idx = (m.ep.fds fd).idx
    · simp only [hidx, Function.update_self]
      exact mqPush_quiet (closeBlk_pushable _ fd) (by simp [closeBlk, MemBlockType.code]) hpush
    · simp only [Function.update_of_ne hidx]
      exact QuietRing.refl _

/-- The `BLK_OPEN` that tells of `a` under the number `n`. -/
theorem isOpen_openBlk (n : Nat) (data : Mem) : isOpen ((openBlk idx n).withData data) = true :=
  rfl

/-- **`do_fd_open` for a new descriptor**: nothing but a number is spent on it, its worker is
told, or there is no room and the listening descriptor is closed. -/
theorem doFdOpen_cases {m m' : Mast} {n : Nat} {a : FdAddr} {ctl : Bool} {r : Int}
    (hfree : ¬ Registered m.ep n) (hlistens : Listens lfd idx m.ep)
    (h : doFdOpen lfd n a ctl m = some (r, m')) :
    r ≠ -1 ∧
      (¬ (0 < n ∧ ctl = true) ∧ m' = m ∨
        (0 < n ∧ ctl = true) ∧ Listens lfd idx m'.ep ∧
          (∀ bs, Rep (m.rq idx) bs →
            Rep (m'.rq idx) (bs ++ [(openBlk idx n).withData a.encode])) ∨
        (0 < n ∧ ctl = true) ∧ ¬ Listens lfd idx m'.ep ∧
          QuietRing (m.rq idx) (m'.rq idx) ∧
          ∀ bs, Rep (m.rq idx) bs → ¬ HasRoom (m.rq idx) (blkHeadLen + fdAddrLen)) := by
  rcases hlistens with ⟨htype, hfd, hidx⟩
  -- the new descriptor is not the listening one
  have hne : lfd ≠ n := by
    intro heq
    refine hfree ⟨?_, heq ▸ hfd⟩
    rw [← heq, htype]
    simp
  unfold doFdOpen at h
  by_cases hpos : (0 : Int) < n
  swap
  · rw [if_neg hpos] at h
    cases h
    refine ⟨by omega, Or.inl ⟨fun hboth => hpos ?_, rfl⟩⟩
    omega
  rw [if_pos hpos] at h
  cases ctl with
  | false =>
    cases h
    exact ⟨by simp, Or.inl ⟨by simp, rfl⟩⟩
  | true =>
    simp only [addFdinfoToEpinfo, if_true, Int.toNat_natCast, hidx] at h
    rw [if_neg (by decide)] at h
    rcases Option.map_eq_some_iff.mp h with ⟨m₁, htell, heq⟩
    cases heq
    refine ⟨by omega, Or.inr ?_⟩
    have hboth : 0 < n ∧ true = true := ⟨by omega, rfl⟩
    have hfds : (addFdinfo n idx .cli a m.ep).fds =
        Function.update m.ep.fds n (fdinfo n idx .cli a) := (addFdinfo_frame _ _ _ _ _).1
    have hlfd : (addFdinfo n idx .cli a m.ep).fds lfd = m.ep.fds lfd := by
      rw [hfds, Function.update_of_ne hne]
    have hnew : ((addFdinfo n idx .cli a m.ep).fds n).idx = idx := by
      rw [hfds, Function.update_self]
      rfl
    unfold tellOpen at htell
    simp only [hnew, Option.bind_eq_some_iff] at htell
    rcases htell with ⟨⟨r, q⟩, hpush, hrest⟩
    by_cases hr : r = -1
    · -- the listening descriptor is the one that is closed
      right
      rw [if_pos hr] at hrest
      have hclose := doFdClose_quiet idx hrest
      have hquiet : QuietRing (m.rq idx) (m'.rq idx) := by
        intro bs hrep
        rcases mqPush_spec hrep (openBlk_pushable idx n) a.encode with ⟨r', q', hpush', _, hres⟩
        cases hpush.symm.trans hpush'
        rcases hres with ⟨hzero, _⟩ | ⟨_, hrep'⟩
        · rw [hzero] at hr
          cases hr
        · refine hclose.2 bs ?_
          simp only [Function.update_self]
          exact hrep'
      refine ⟨hboth, ?_, hquiet, fun bs hrep hroom => ?_⟩
      · rintro ⟨htype', _⟩
        unfold doFdClose at hrest
        rw [if_neg (by simp only; rw [hlfd, htype]; simp)] at hrest
        simp only [Option.bind_eq_some_iff, Option.map_eq_some_iff] at hrest
        rcases hrest with ⟨_, _, ep, hep, heq⟩
        rcases (closeSlot_closed hep).self with ⟨flag, hself⟩
        rw [← heq] at htype'
        simp only at htype'
        rw [hself] at htype'
        cases htype'
      · have hiff := refused_iff hrep (openBlk_pushable idx n) a.encode
        rw [openBlk_len] at hiff
        exact hiff.mp ⟨q, hr ▸ hpush⟩ hroom
    · -- the worker is told
      left
      rw [if_neg hr] at hrest
      rw [← Option.some.inj hrest]
      refine ⟨hboth, ?_, fun bs hrep => ?_⟩
      · unfold Listens
        simp only [hlfd]
        exact ⟨htype, hfd, hidx⟩
      · rcases mqPush_spec hrep (openBlk_pushable idx n) a.encode with ⟨r', q', hpush', _, hres⟩
        cases hpush.symm.trans hpush'
        rcases hres with ⟨_, hrep'⟩ | ⟨hno, _⟩
        · simp only [Function.update_self]
          exact hrep'
        · exact absurd hno hr

/-! ## Every connection is accounted for -/

variable {cap : Nat}

/-- Something else happens to the ring and to other entries. -/
theorem AccInv.quiet {s : AccSt} (h : AccInv lfd idx s) {m : Mast}
    (hfds : m.ep.fds lfd = s.m.ep.fds lfd) (hring : QuietRing (s.m.rq idx) (m.rq idx)) :
    AccInv lfd idx { s with m := m } := by
  rcases h.ring with ⟨bs, hrep, hopens⟩
  rcases hring bs hrep with ⟨bs', hrep', hsame⟩
  refine ⟨h.accounted, ?_, bs', hrep', ?_⟩
  · unfold Listens
    simp only [hfds]
    exact h.listens
  · simp only
    rw [List.filter_append, hsame, ← List.filter_append]
    exact hopens

/-- The first that waits is taken, and its worker is not told. -/
theorem AccInv.fate {s : AccSt} (h : AccInv lfd idx s) {a : FdAddr} {rest : List FdAddr}
    (hbacklog : s.backlog = a :: rest) {f : Fate} (htells : tells idx (a, f) = none) (b : Bool) :
    AccInv lfd idx
      { s with backlog := rest, fates := s.fates ++ [(a, f)], looping := b } := by
  rcases h.ring with ⟨bs, hrep, hopens⟩
  refine ⟨?_, ?_, bs, hrep, ?_⟩
  · rw [h.accounted, hbacklog]
    simp
  · rcases h.listens with hlistens | hnil
    · exact Or.inl hlistens
    · cases hbacklog.symm.trans hnil
  · simp only
    rw [hopens, List.filterMap_append, List.filterMap_cons_none htells, List.filterMap_nil,
      List.append_nil]

/-- **`do_fd_open`** with the first that waits. -/
theorem AccInv.opened {s : AccSt} (h : AccInv lfd idx s) {a : FdAddr} {rest : List FdAddr}
    (hbacklog : s.backlog = a :: rest) {n : Nat} {ctl : Bool} {r : Int} {m : Mast}
    (hfree : ¬ Registered s.m.ep n) (hopen : doFdOpen lfd n a ctl s.m = some (r, m)) :
    AccInv lfd idx (s.opened lfd idx a rest n ctl r m) := by
  have hlistens : Listens lfd idx s.m.ep := by
    rcases h.listens with hlistens | hnil
    · exact hlistens
    · cases hbacklog.symm.trans hnil
  rcases h.ring with ⟨bs, hrep, hopens⟩
  rcases (doFdOpen_cases hfree hlistens hopen).2 with
    ⟨hnot, hm⟩ | ⟨hboth, hstill, hring⟩ | ⟨hboth, hclosed, hring, _⟩
  · unfold AccSt.opened
    simp only [if_neg hnot, hm]
    exact h.fate hbacklog rfl _
  · -- told
    unfold AccSt.opened
    simp only [if_pos hboth, if_pos hstill]
    refine ⟨?_, Or.inl hstill, _, hring bs hrep, ?_⟩
    · rw [h.accounted, hbacklog]
      simp
    · simp only
      rw [← List.append_assoc, List.filter_append, hopens, List.filterMap_append,
        List.filter_cons_of_pos (isOpen_openBlk n _)]
      rfl
  · -- refused: all that waits is reset with the listening descriptor
    unfold AccSt.opened
    simp only [if_pos hboth, if_neg hclosed]
    rcases hring bs hrep with ⟨bs', hrep', hsame⟩
    refine ⟨?_, Or.inr rfl, bs', hrep', ?_⟩
    · rw [h.accounted, hbacklog]
      simp [Function.comp_def]
    · simp only
      have hnone : ((a, Fate.untold n) :: rest.map fun b => (b, Fate.reset)).filterMap
          (tells idx) = [] := by
        rw [List.filterMap_eq_nil_iff]
        intro x hx
        rcases List.mem_cons.mp hx with heq | hmem
        · rw [heq]
          rfl
        · rcases List.mem_map.mp hmem with ⟨b, _, heq⟩
          rw [← heq]
          rfl
      rw [List.filter_append, hsame, ← List.filter_append, hopens, List.filterMap_append, hnone,
        List.append_nil]

/-- **One step** leaves everything accounted for. -/
theorem accStep_inv {l : AccLbl} {s t : AccSt} (h : AccInv lfd idx s)
    (hstep : accStep cap lfd idx l s = some t) : AccInv lfd idx t := by
  cases l with
  | arrive a =>
    simp only [accStep, Option.ite_none_right_eq_some] at hstep
    rcases hstep with ⟨⟨hlistens, _⟩, heq⟩
    rw [← Option.some.inj heq]
    refine ⟨?_, Or.inl hlistens, h.ring⟩
    rw [h.accounted, List.append_assoc]
  | wake =>
    simp only [accStep, Option.ite_none_right_eq_some] at hstep
    rw [← Option.some.inj hstep.2]
    exact ⟨h.accounted, h.listens, h.ring⟩
  | accept res =>
    simp only [accStep, Option.ite_none_right_eq_some] at hstep
    rcases hstep with ⟨_, hstep⟩
    cases res with
    | eintr =>
      rw [← Option.some.inj hstep]
      exact h
    | again =>
      simp only [acceptStep, Option.ite_none_right_eq_some] at hstep
      rw [← Option.some.inj hstep.2]
      exact ⟨h.accounted, h.listens, h.ring⟩
    | fails =>
      rw [← Option.some.inj hstep]
      exact ⟨h.accounted, h.listens, h.ring⟩
    | aborted =>
      simp only [acceptStep] at hstep
      split at hstep
      · cases hstep
      · next a rest hbacklog =>
        rw [← Option.some.inj hstep]
        exact h.fate hbacklog rfl false
    | got n nonblock ctl =>
      simp only [acceptStep] at hstep
      split at hstep
      · cases hstep
      · next a rest hbacklog =>
        simp only [Option.ite_none_left_eq_some] at hstep
        rcases hstep with ⟨hfree, hstep⟩
        cases nonblock with
        | true =>
          rw [if_pos rfl, Option.map_eq_some_iff] at hstep
          rcases hstep with ⟨⟨r, m⟩, hopen, heq⟩
          rw [← heq]
          exact h.opened hbacklog hfree hopen
        | false =>
          rw [if_neg (by simp)] at hstep
          rw [← Option.some.inj hstep]
          exact h.fate hbacklog rfl false
  -- other descriptors close, which may push their `BLK_CLOSE` into this ring
  | close fd =>
    simp only [accStep, Option.ite_none_right_eq_some, Option.map_eq_some_iff] at hstep
    rcases hstep with ⟨⟨_, hne⟩, m, hclose, heq⟩
    rw [← heq]
    rcases doFdClose_quiet idx hclose with ⟨hothers, hring⟩
    exact h.quiet (hothers lfd (Ne.symm hne)) hring
  | push i b data =>
    simp only [accStep, Option.ite_none_right_eq_some, Option.map_eq_some_iff] at hstep
    rcases hstep with ⟨⟨_, hb, htype⟩, ⟨r, q⟩, hpush, heq⟩
    rw [← heq]
    refine h.quiet rfl ?_
    by_cases hi : idx = i
    · subst hi
      simp only [Function.update_self]
      exact mqPush_quiet hb htype hpush
    · simp only [Function.update_of_ne hi]
      exact QuietRing.refl _
  | pop =>
    simp only [accStep, Option.map_eq_some_iff] at hstep
    rcases hstep with ⟨⟨p, q⟩, hget, heq⟩
    rcases h.ring with ⟨bs, hrep, hopens⟩
    rcases mqGet_spec hrep with ⟨p', q', hget', _, _, hrep', hres⟩
    cases hget.symm.trans hget'
    rw [← heq]
    rcases hres with ⟨hp, _⟩ | ⟨hp, hat⟩
    · subst hp
      refine ⟨h.accounted, h.listens, bs, ?_, hopens⟩
      simp only [Function.update_self]
      exact hrep'
    · -- the oldest block goes over to the worker
      subst hp
      rcases mqPop_spec hrep' hat with ⟨b, rest, hbs, hb, hrest⟩
      refine ⟨h.accounted, h.listens, rest, ?_, ?_⟩
      · simp only [Function.update_self]
        exact hrest
      · simp only
        rw [hb, List.append_assoc, List.singleton_append, ← hbs]
        exact hopens

/-! ## When the master sleeps -/

/-- The loop has ended. -/
theorem ended_attended {t : AccSt} {c : Prop} (hends : t.looping = false)
    (hc : c ↔ t.backlog = [] ∨ t.event = true) :
    c ∧ Attended t ∨ ¬ c ∧ ¬ Attended t := by
  by_cases hdrained : t.backlog = [] ∨ t.event = true
  · exact Or.inl ⟨hc.mpr hdrained, fun _ => hdrained⟩
  · exact Or.inr ⟨fun h => hdrained (hc.mp h), fun hatt => hdrained (hatt hends)⟩

/-- **One step**, on either side of its condition: the loop goes on behind a `do_fd_open`
that has got something, and ends behind one that has not. -/
theorem accStep_attended {l : AccLbl} {s t : AccSt} (h : Attended s)
    (hlistens : Listens lfd idx s.m.ep ∨ s.backlog = [])
    (hstep : accStep cap lfd idx l s = some t) :
    EndsDrained l s ∧ Attended t ∨ ¬ EndsDrained l s ∧ ¬ Attended t := by
  cases l with
  | arrive a =>
    left
    simp only [accStep, Option.ite_none_right_eq_some] at hstep
    rw [← Option.some.inj hstep.2]
    exact ⟨trivial, fun _ => Or.inr rfl⟩
  | wake =>
    left
    simp only [accStep, Option.ite_none_right_eq_some] at hstep
    rw [← Option.some.inj hstep.2]
    refine ⟨trivial, fun hno => ?_⟩
    cases hno
  | accept res =>
    simp only [accStep, Option.ite_none_right_eq_some] at hstep
    rcases hstep with ⟨_, hstep⟩
    cases res with
    | eintr =>
      rw [← Option.some.inj hstep]
      exact Or.inl ⟨trivial, h⟩
    | again =>
      left
      simp only [acceptStep, Option.ite_none_right_eq_some] at hstep
      rw [← Option.some.inj hstep.2]
      exact ⟨trivial, fun _ => Or.inl hstep.1⟩
    | fails =>
      rw [← Option.some.inj hstep]
      exact ended_attended rfl Iff.rfl
    | aborted =>
      simp only [acceptStep] at hstep
      split at hstep
      · cases hstep
      · next a rest hbacklog =>
        rw [← Option.some.inj hstep]
        refine ended_attended rfl ?_
        show s.backlog.tail = [] ∨ _ ↔ _
        rw [hbacklog, List.tail_cons]
    | got n nonblock ctl =>
      simp only [acceptStep] at hstep
      split at hstep
      · cases hstep
      · next a rest hbacklog =>
        simp only [Option.ite_none_left_eq_some] at hstep
        rcases hstep with ⟨hfree, hstep⟩
        cases nonblock with
        | true =>
          left
          rw [if_pos rfl, Option.map_eq_some_iff] at hstep
          rcases hstep with ⟨⟨r, m⟩, hopen, heq⟩
          have hlistens' : Listens lfd idx s.m.ep := by
            rcases hlistens with hyes | hnil
            · exact hyes
            · cases hbacklog.symm.trans hnil
          have hr := (doFdOpen_cases hfree hlistens' hopen).1
          -- `do_fd_open` returns what it was given, and the loop goes on
          have hloops : (s.opened lfd idx a rest n ctl r m).looping = true := by
            unfold AccSt.opened
            simp only
            split
            · split
              · exact decide_eq_true hr
              · exact decide_eq_true hr
            · exact decide_eq_true hr
          rw [← heq]
          refine ⟨trivial, fun hno => ?_⟩
          cases hno.symm.trans hloops
        | false =>
          rw [if_neg (by simp)] at hstep
          rw [← Option.some.inj hstep]
          refine ended_attended rfl ?_
          show s.backlog.tail = [] ∨ _ ↔ _
          rw [hbacklog, List.tail_cons]
  | close fd =>
    left
    simp only [accStep, Option.ite_none_right_eq_some, Option.map_eq_some_iff] at hstep
    rcases hstep with ⟨_, m, _, heq⟩
    rw [← heq]
    exact ⟨trivial, h⟩
  | push i b data =>
    left
    simp only [accStep, Option.ite_none_right_eq_some, Option.map_eq_some_iff] at hstep
    rcases hstep with ⟨_, x, _, heq⟩
    rw [← heq]
    exact ⟨trivial, h⟩
  | pop =>
    left
    simp only [accStep, Option.map_eq_some_iff] at hstep
    rcases hstep with ⟨⟨p, q⟩, _, heq⟩
    rw [← heq]
    cases p with
    | none => exact ⟨trivial, h⟩
    | some pos => exact ⟨trivial, h⟩

/-- **No connection waits without an event exactly when** each `accept` whose failure ends
the loop, one that fails or one whose descriptor cannot be made non-blocking, leaves
nothing in the backlog, or something has arrived meanwhile. -/
theorem backlog_attended_iff (cap : Nat) {lfd : Nat} {idx : Int} {m : Mast}
    (hlistens : Listens lfd idx m.ep) (hrep : Rep (m.rq idx) []) (ls : List AccLbl) :
    Throughout (accStep cap lfd idx) Attended ls (accInit m) ↔
      Along (accStep cap lfd idx) EndsDrained ls (accInit m) := by
  refine throughout_iff_along (fun s => AccInv lfd idx s ∧ Attended s) (fun s hs => hs.2)
    (fun l s t hs hstep => ?_) ⟨accInit_inv hlistens hrep, fun _ => Or.inl rfl⟩
  rcases accStep_attended hs.2 hs.1.listens hstep with ⟨hl, hatt⟩ | hbad
  · exact Or.inl ⟨hl, accStep_inv hs.1 hstep, hatt⟩
  · exact Or.inr hbad

/-! ## When nothing fails -/

/-- All that have been taken have been told of, `xs` under their numbers. -/
def AllTold (s : AccSt) (xs : List (FdAddr × Nat)) : Prop :=
  s.fates = xs.map fun x => (x.1, Fate.told x.2)

/-- **One step** that meets the stricter condition tells of what it takes. -/
theorem accStep_told {l : AccLbl} {s t : AccSt} {xs : List (FdAddr × Nat)}
    (h : AccInv lfd idx s) (hlistens : Listens lfd idx s.m.ep) (hall : AllTold s xs)
    (hl : Welcomes idx l s) (hstep : accStep cap lfd idx l s = some t) :
    Listens lfd idx t.m.ep ∧ ∃ xs', AllTold t xs' := by
  cases l with
  | arrive a | wake =>
    simp only [accStep, Option.ite_none_right_eq_some] at hstep
    rw [← Option.some.inj hstep.2]
    exact ⟨hlistens, xs, hall⟩
  | accept res =>
    simp only [accStep, Option.ite_none_right_eq_some] at hstep
    rcases hstep with ⟨_, hstep⟩
    cases res with
    | eintr | fails =>
      rw [← Option.some.inj hstep]
      exact ⟨hlistens, xs, hall⟩
    | again =>
      simp only [acceptStep, Option.ite_none_right_eq_some] at hstep
      rw [← Option.some.inj hstep.2]
      exact ⟨hlistens, xs, hall⟩
    -- excluded, as is every failure
    | aborted => exact hl.2.elim
    | got n nonblock ctl =>
      rcases hl.2 with ⟨hpos, hnonblock, hctl, hroom⟩
      simp only [acceptStep] at hstep
      split at hstep
      · cases hstep
      · next a rest hbacklog =>
        simp only [Option.ite_none_left_eq_some] at hstep
        rcases hstep with ⟨hfree, hstep⟩
        rw [if_pos hnonblock, Option.map_eq_some_iff] at hstep
        rcases hstep with ⟨⟨r, m⟩, hopen, heq⟩
        rcases h.ring with ⟨bs, hrep, _⟩
        rcases (doFdOpen_cases hfree hlistens hopen).2 with
          ⟨hnot, _⟩ | ⟨hboth, hstill, _⟩ | ⟨_, _, _, hfull⟩
        · exact absurd ⟨hpos, hctl⟩ hnot
        · rw [← heq]
          unfold AccSt.opened
          simp only [if_pos hboth, if_pos hstill]
          refine ⟨hstill, xs ++ [(a, n)], ?_⟩
          -- one more is told, behind those before it
          have hall' : s.fates = xs.map fun x => (x.1, Fate.told x.2) := hall
          simp only [AllTold, hall', List.map_append, List.map_cons, List.map_nil]
        · exact absurd hroom (hfull bs hrep)
  | close fd =>
    simp only [accStep, Option.ite_none_right_eq_some, Option.map_eq_some_iff] at hstep
    rcases hstep with ⟨⟨_, hne⟩, m, hclose, heq⟩
    rw [← heq]
    refine ⟨?_, xs, hall⟩
    unfold Listens
    rw [(doFdClose_quiet idx hclose).1 lfd (Ne.symm hne)]
    exact hlistens
  | push i b data =>
    simp only [accStep, Option.ite_none_right_eq_some, Option.map_eq_some_iff] at hstep
    rcases hstep with ⟨_, x, _, heq⟩
    rw [← heq]
    exact ⟨hlistens, xs, hall⟩
  | pop =>
    simp only [accStep, Option.map_eq_some_iff] at hstep
    rcases hstep with ⟨⟨p, q⟩, _, heq⟩
    rw [← heq]
    cases p with
    | none => exact ⟨hlistens, xs, hall⟩
    | some pos => exact ⟨hlistens, xs, hall⟩

/-- **When nothing fails, the worker is told of every connection**, of each once and in the
order of their arrival: of all but those that wait, and when the master sleeps with no
event to come, of all. -/
theorem arrivals_told (cap : Nat) {lfd : Nat} {idx : Int} {m : Mast}
    (hlistens : Listens lfd idx m.ep) (hrep : Rep (m.rq idx) []) {ls : List AccLbl} {s : AccSt}
    (hls : Along (accStep cap lfd idx) (Welcomes idx) ls (accInit m))
    (hrun : exec (accStep cap lfd idx) ls (accInit m) = some s) :
    ∃ (xs : List (FdAddr × Nat)) (bs : List Blk), Rep (s.m.rq idx) bs ∧
      (s.popped ++ bs).filter isOpen = xs.map (fun x => (openBlk idx x.2).withData x.1.encode) ∧
      s.arrived = xs.map (·.1) ++ s.backlog ∧
      (s.looping = false → ¬ (s.event = true ∧ s.backlog ≠ []) → s.arrived = xs.map (·.1)) := by
  have h : AccInv lfd idx s ∧ Attended s ∧ Listens lfd idx s.m.ep ∧ ∃ xs, AllTold s xs := by
    refine exec_invariant
      (fun s => AccInv lfd idx s ∧ Attended s ∧ Listens lfd idx s.m.ep ∧ ∃ xs, AllTold s xs)
      (fun l s t hs hl hstep => ?_)
      ⟨accInit_inv hlistens hrep, fun _ => Or.inl rfl, hlistens, [], rfl⟩ hls hrun
    rcases hs with ⟨hinv, hatt, hlis, xs, hall⟩
    refine ⟨accStep_inv hinv hstep, ?_, accStep_told hinv hlis hall hl hstep⟩
    rcases accStep_attended hatt hinv.listens hstep with ⟨_, hatt'⟩ | ⟨hno, _⟩
    · exact hatt'
    · exact absurd hl.1 hno
  rcases h with ⟨hinv, hatt, _, xs, hall⟩
  rcases hinv.ring with ⟨bs, hrep', hopens⟩
  have haccounted : s.arrived = xs.map (·.1) ++ s.backlog := by
    rw [hinv.accounted, hall, List.map_map]
    rfl
  refine ⟨xs, bs, hrep', ?_, haccounted, fun hsleeps hquiet => ?_⟩
  · rw [hopens, hall, List.filterMap_map]
    show xs.filterMap (some ∘ fun x => (openBlk idx x.2).withData x.1.encode) = _
    rw [List.filterMap_eq_map]
  · have hnil : s.backlog = [] := by
      rcases hatt hsleeps with hnil | hevent
      · exact hnil
      · by_contra hne
        exact hquiet ⟨hevent, hne⟩
    rw [haccounted, hnil, List.append_nil]

/-- A master that listens on 7 for its first worker, with a fresh `rq`. -/
def listening7 : Mast :=
  { ep := addFdinfo 7 0 .listen ⟨0, 0⟩ epInit, rq := fun _ => mqInit 100, closed := [] }

/-- Two connections arrive, and a third one when the first has been accepted. -/
def threeArrive : List AccLbl :=
  [.arrive ⟨1, 80⟩, .arrive ⟨2, 80⟩, .wake, .accept (.got 8 true true), .arrive ⟨3, 80⟩, .pop,
    .accept .eintr, .accept (.got 9 true true), .accept (.got 10 true true), .accept .again]

/-- Three clients: their addresses are in the blocks, one after the other. -/
theorem arrivals_told_threeArrive :
    ∃ s, ∃ xs : List (FdAddr × Nat),
      exec (accStep 128 7 0) threeArrive (accInit listening7) = some s ∧
      s.arrived = xs.map (·.1) ∧ ∃ bs, (s.popped ++ bs).filter isOpen =
        xs.map fun x => (openBlk 0 x.2).withData x.1.encode := by
  have hsome : (exec (accStep 128 7 0) threeArrive (accInit listening7)).isSome := by
    decide +kernel
  have hls : Along (accStep 128 7 0) (Welcomes 0) threeArrive (accInit listening7) := by
    decide +kernel
  have hsleeps : ∀ s ∈ exec (accStep 128 7 0) threeArrive (accInit listening7),
      s.looping = false ∧ s.backlog = [] := by decide +kernel
  rcases Option.isSome_iff_exists.mp hsome with ⟨s, hrun⟩
  rcases hsleeps s hrun with ⟨hlooping, hnil⟩
  rcases arrivals_told 128 (by decide) (rep_init (by decide)) hls hrun with
    ⟨xs, bs, _, hopens, _, hall⟩
  exact ⟨s, xs, hrun, hall hlooping fun hquiet => hquiet.2 hnil, bs, hopens⟩

/-- And none of them is left waiting. -/
theorem backlog_attended_iff_threeArrive :
    Throughout (accStep 128 7 0) Attended threeArrive (accInit listening7) := by
  refine (backlog_attended_iff 128 (m := listening7) (by decide) (rep_init (by decide)) _).mpr ?_
  decide +kernel

/-- The master has no descriptor left for the first connection, and the second waits with it
until a third one arrives. -/
theorem backlog_forgotten :
    ∃ s ∈ exec (accStep 128 7 0) [.arrive ⟨1, 80⟩, .arrive ⟨2, 80⟩, .wake, .accept .fails]
      (accInit listening7), ¬ Attended s := by
  refine ⟨_, rfl, fun hatt => ?_⟩
  rcases hatt rfl with hnil | hevent
  · cases hnil
  · cases hevent

end SServer.Master
