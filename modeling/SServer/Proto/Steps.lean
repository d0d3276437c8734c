import SServer.Proto.Model

/-!
# SServer.Proto.Steps — what a step can be

The cases of `workStep` and of `masterStep`, each with its guard and with the
state it leads to. Every invariant of the system is shown from these.

* `WorkStep`, `workStep_cases`: the steps of a worker: a block of `rq` is handled, a callback
  returns or acts, the block is popped.
* `MasterStep`, `masterStep_cases`: the steps of the master: it accepts, frames a message, hangs
  up, or handles a block of `sq`.
* `sysStep_cases`: a step of the system is one of these, and the other workers are as they were.
* `pushRq_self`, `pushRq_other`, `popSq_self`, `popSq_other`: frame lemmas for the two queues of
  a worker.

The module only inverts the two step functions; no step is excluded by it.
-/

namespace SServer.Proto

open SServer.Lib SServer.Queue SServer.Worker

/-! ## Steps of a worker -/

/-- The steps of worker `i`: what it does, the worker behind it, and what is seen. -/
inductive WorkStep (i : Int32) (w : Work) : WorkLbl → Work → List Ev → Prop where
  /-- The oldest block of `rq` is handled. -/
  | recv {blk : Block} {rest : List Block} (pushed : Bool) (hidle : w.phase = .idle)
      (hclosing : w.closing = []) (hsane : w.garbled = false) (hrq : w.rq = blk :: rest) :
      WorkStep i w (.recv pushed) (handleBlock blk pushed w).1 (handleBlock blk pushed w).2
  /-- Behind a missed `mq_pop` anything may be read as a block, and is handled. -/
  | recvGarbled (blk : Block) (pushed : Bool) (hidle : w.phase = .idle)
      (hclosing : w.closing = []) (hgarbled : w.garbled = true) (hconn : blk.conn = none) :
      WorkStep i w (.recvGarbled blk pushed) (handleBlock blk pushed w).1
        (handleBlock blk pushed w).2
  /-- `proc_cli_msg` returns `0`. -/
  | procRet {fd : Int32} (pushed : Bool) (hphase : w.phase = .inProc fd)
      (hclosing : w.closing = []) :
      WorkStep i w (.procRet 0 pushed) { w with phase := .handled } []
  /-- It returns something else, and the client is closed. -/
  | procErr {fd : Int32} {r : Int} {w' : Work} {evs : List Ev} (pushed : Bool) (hr : r ≠ 0)
      (hphase : w.phase = .inProc fd) (hclosing : w.closing = [])
      (hclose : closeCli i fd pushed { w with phase := .handled } = some (w', evs)) :
      WorkStep i w (.procRet r pushed) w' evs
  /-- `on_cli_closed` returns in `close_cli`, which frees the session. -/
  | cliRet {fd : Int32} {rest : List Int32} (hclosing : w.closing = fd :: rest) :
      WorkStep i w .closedRet { w with fds := removeFd w.fds fd, closing := rest } []
  /-- It returns in `do_blk_close`, which frees the session as well. -/
  | blkRet {fd : Int32} (hclosing : w.closing = []) (hphase : w.phase = .inClosed fd) :
      WorkStep i w .closedRet { w with fds := removeFd w.fds fd, phase := .handled } []
  /-- `mq_pop` behind the switch, which takes no block from a garbled `rq`. -/
  | pop (hphase : w.phase = .handled) (hclosing : w.closing = []) :
      WorkStep i w .pop
        { w with phase := .idle, rq := if w.garbled then w.rq else w.rq.tail } []
  /-- A callback calls `send_to_cli` for a session that it has. -/
  | sendToCli {fd : Int32} {x : Sess} (msg : List UInt8) (pushed : Bool)
      (hx : getFd w.fds fd = some x) (hid : x.sess.id = i) :
      WorkStep i w (.sendToCli fd msg pushed)
        (w.pushSq ⟨.blkData, i, fd, msg, x.conn⟩ pushed) []
  /-- A callback calls `close_cli`. -/
  | closeCli {fd : Int32} {w' : Work} {evs : List Ev} (pushed : Bool)
      (hclose : closeCli i fd pushed w = some (w', evs)) :
      WorkStep i w (.closeCli fd pushed) w' evs

/-- **What a step of a worker is**: one of its cases, with the guard that let it pass. -/
theorem workStep_cases {i : Int32} {l : WorkLbl} {w w' : Work} {evs : List Ev}
    (hstep : workStep i l w = some (w', evs)) : WorkStep i w l w' evs := by
  cases l with
  | recv pushed =>
    simp only [workStep, Option.ite_none_right_eq_some] at hstep
    rcases hstep with ⟨⟨hidle, hclosing, hsane⟩, hstep⟩
    cases hrq : w.rq with
    | nil =>
      rw [hrq] at hstep
      cases hstep
    | cons blk rest =>
      rw [hrq] at hstep
      have hres := WorkStep.recv (i := i) pushed hidle hclosing hsane hrq
      rw [Option.some.inj hstep] at hres
      exact hres
  | recvGarbled blk pushed =>
    simp only [workStep, Option.ite_none_right_eq_some] at hstep
    rcases hstep with ⟨⟨hidle, hclosing, hgarbled, hconn⟩, hstep⟩
    have hres := WorkStep.recvGarbled (i := i) blk pushed hidle hclosing hgarbled hconn
    rw [Option.some.inj hstep] at hres
    exact hres
  | procRet r pushed =>
    cases hphase : w.phase with
    | inProc fd =>
      simp only [workStep, hphase, Option.ite_none_right_eq_some] at hstep
      rcases hstep with ⟨hclosing, hstep⟩
      by_cases hr : r = 0
      · rw [if_neg (not_not_intro hr)] at hstep
        cases hstep
        rw [hr]
        exact WorkStep.procRet pushed hphase hclosing
      · rw [if_pos hr] at hstep
        exact WorkStep.procErr pushed hr hphase hclosing hstep
    | idle | inClosed fd | handled =>
      simp only [workStep, hphase] at hstep
      cases hstep
  | closedRet =>
    cases hclosing : w.closing with
    | cons fd rest =>
      simp only [workStep, hclosing] at hstep
      cases hstep
      exact WorkStep.cliRet hclosing
    | nil =>
      cases hphase : w.phase with
      | inClosed fd =>
        have hres := WorkStep.blkRet (i := i) hclosing hphase
        simp only [workStep, hclosing, hphase] at hstep hres
        cases hstep
        exact hres
      | idle | inProc fd | handled =>
        simp only [workStep, hclosing, hphase] at hstep
        cases hstep
  | pop =>
    simp only [workStep, Option.ite_none_right_eq_some] at hstep
    rcases hstep with ⟨⟨hphase, hclosing⟩, hstep⟩
    cases hstep
    exact WorkStep.pop hphase hclosing
  | sendToCli fd msg pushed =>
    cases hx : getFd w.fds fd with
    | none =>
      simp only [workStep, hx] at hstep
      cases hstep
    | some x =>
      simp only [workStep, hx, Option.ite_none_right_eq_some] at hstep
      rcases hstep with ⟨hid, hstep⟩
      cases hstep
      exact WorkStep.sendToCli msg pushed hx hid
  | closeCli fd pushed => exact WorkStep.closeCli pushed hstep

/-! ## Steps of the master -/

/-- A block has come to `rq`. -/
def Work.enqueue (w : Work) (blk : Block) : Work := { w with rq := w.rq ++ [blk] }

/-- A push that succeeds reaches its worker. -/
theorem pushRq_self (s : Sys) (idx : Int32) (blk : Block) :
    (s.pushRq idx blk true).works idx = (s.works idx).enqueue blk :=
  Function.update_self _ _ _

/-- No push reaches another one. -/
theorem pushRq_other (s : Sys) {idx i : Int32} (hne : i ≠ idx) (blk : Block) (pushed : Bool) :
    (s.pushRq idx blk pushed).works i = s.works i := by
  cases pushed with
  | false => rfl
  | true => exact Function.update_of_ne hne _ _

/-- The oldest block of `sq` goes. -/
theorem popSq_self (s : Sys) (i : Int32) :
    (s.popSq i).works i = { s.works i with sq := (s.works i).sq.tail } :=
  Function.update_self _ _ _

/-- The `sq` of another worker stays. -/
theorem popSq_other (s : Sys) {i j : Int32} (hne : i ≠ j) : (s.popSq j).works i = s.works i :=
  Function.update_of_ne hne _ _

/-- The `BLK_OPEN` of an accepted connection. -/
def Accepted.openBlock (a : Accepted) (c : Conn) : Block :=
  { type := .blkOpen, id := a.idx, fd := a.fd, data := a.addr, conn := some c }

/-- An accepted connection is registered, with the next number. -/
def Sys.register (s : Sys) (a : Accepted) : Sys :=
  { s with
    slots := Function.update s.slots a.fd (.cli a.idx s.conns.length)
    conns := s.conns ++ [a] }

/-- Registering takes one slot. -/
@[simp] theorem register_slots (s : Sys) (a : Accepted) :
    (s.register a).slots = Function.update s.slots a.fd (.cli a.idx s.conns.length) := rfl

/-- It counts the connection. -/
@[simp] theorem register_conns (s : Sys) (a : Accepted) :
    (s.register a).conns = s.conns ++ [a] := rfl

/-- It tells nobody yet. -/
@[simp] theorem register_works (s : Sys) (a : Accepted) : (s.register a).works = s.works := rfl

/-- The `BLK_DATA` of a message. -/
def msgBlock (idx fd : Int32) (data : List UInt8) (conn : Conn) : Block :=
  { type := .blkData, id := idx, fd := fd, data := data, conn := some conn }

/-- A message has been framed. -/
def Sys.framed (s : Sys) (conn : Conn) (data : List UInt8) : Sys :=
  { s with calls := s.calls ++ [.framed conn data] }

/-- The steps of the master, and the system behind them. -/
inductive MasterStep (s : Sys) : MasterLbl → Sys → Prop where
  /-- `accept` gives a connection, and its `BLK_OPEN` is pushed. -/
  | accept {lfd : Int32} {a : Accepted} (noted : Bool) (hlfd : s.slots lfd = .listen a.idx)
      (hpos : 0 < a.fd) (hfree : s.slots a.fd = .null ∨ s.slots a.fd = .fresh)
      (haddr : a.addr.length = addrLen) :
      MasterStep s (.accept lfd a.fd a.addr true noted)
        ((s.register a).pushRq a.idx (a.openBlock s.conns.length) true)
  /-- The push fails, and the listening descriptor is closed for it. -/
  | acceptLost {lfd : Int32} {a : Accepted} (noted : Bool) (hlfd : s.slots lfd = .listen a.idx)
      (hpos : 0 < a.fd) (hfree : s.slots a.fd = .null ∨ s.slots a.fd = .fresh)
      (haddr : a.addr.length = addrLen) :
      MasterStep s (.accept lfd a.fd a.addr false noted) (doFdClose lfd noted (s.register a))
  /-- A message is framed and pushed. -/
  | frame {fd idx : Int32} {conn : Conn} (data : List UInt8) (noted : Bool)
      (hslot : s.slots fd = .cli idx conn) :
      MasterStep s (.frame fd data true noted)
        ((s.framed conn data).pushRq idx (msgBlock idx fd data conn) true)
  /-- The push of a framed message fails, and the client is closed. -/
  | frameLost {fd idx : Int32} {conn : Conn} (data : List UInt8) (noted : Bool)
      (hslot : s.slots fd = .cli idx conn) :
      MasterStep s (.frame fd data false noted) (doFdClose fd noted (s.framed conn data))
  /-- The client is closed for an event or a failed read. -/
  | hangup {fd idx : Int32} {conn : Conn} (noted : Bool) (hslot : s.slots fd = .cli idx conn) :
      MasterStep s (.hangup fd noted) (doFdClose fd noted s)
  /-- A block of `sq` is handled and popped. -/
  | mqSend {i : Int32} {blk : Block} {rest : List Block} (taken : Nat) (alive noted : Bool)
      (hsq : (s.works i).sq = blk :: rest) :
      MasterStep s (.mqSend i taken alive noted) ((doBlkSend blk taken alive noted s).popSq i)

/-- **What a step of the master is**: one of its cases, whose pushes have succeeded or not. -/
theorem masterStep_cases {l : MasterLbl} {s t : Sys} (hstep : masterStep l s = some t) :
    MasterStep s l t := by
  cases l with
  | accept lfd newfd addr pushed noted =>
    cases hslot : s.slots lfd with
    | listen idx =>
      simp only [masterStep, hslot, Option.ite_none_right_eq_some] at hstep
      rcases hstep with ⟨⟨hpos, hfree, haddr⟩, hstep⟩
      cases pushed with
      | true =>
        cases hstep
        exact MasterStep.accept (a := ⟨newfd, idx, addr⟩) noted hslot hpos hfree haddr
      | false =>
        cases hstep
        exact MasterStep.acceptLost (a := ⟨newfd, idx, addr⟩) noted hslot hpos hfree haddr
    | null | fresh | cli idx c =>
      simp only [masterStep, hslot] at hstep
      cases hstep
  | frame fd data pushed noted =>
    cases hslot : s.slots fd with
    | cli idx conn =>
      simp only [masterStep, hslot] at hstep
      cases pushed with
      | true =>
        cases hstep
        exact MasterStep.frame data noted hslot
      | false =>
        cases hstep
        exact MasterStep.frameLost data noted hslot
    | null | fresh | listen idx =>
      simp only [masterStep, hslot] at hstep
      cases hstep
  | hangup fd noted =>
    cases hslot : s.slots fd with
    | cli idx conn =>
      simp only [masterStep, hslot] at hstep
      cases hstep
      exact MasterStep.hangup noted hslot
    | null | fresh | listen idx =>
      simp only [masterStep, hslot] at hstep
      cases hstep
  | mqSend i taken alive noted =>
    cases hsq : (s.works i).sq with
    | nil =>
      simp only [masterStep, hsq] at hstep
      cases hstep
    | cons blk rest =>
      simp only [masterStep, hsq] at hstep
      cases hstep
      exact MasterStep.mqSend taken alive noted hsq

/-- A step of the system is one of the master or of a worker. -/
theorem sysStep_cases {l : Lbl} {s t : Sys} (hstep : sysStep l s = some t) :
    (∃ ml, l = .master ml ∧ MasterStep s ml t) ∨
      ∃ i wl w evs, l = .work i wl ∧ WorkStep i (s.works i) wl w evs ∧
        t = { s with works := Function.update s.works i w, calls := s.calls ++ evs } := by
  cases l with
  | master ml => exact Or.inl ⟨ml, rfl, masterStep_cases hstep⟩
  | work i wl =>
    simp only [sysStep, Option.map_eq_some_iff] at hstep
    rcases hstep with ⟨⟨w, evs⟩, hwork, heq⟩
    exact Or.inr ⟨i, wl, w, evs, rfl, workStep_cases hwork, heq.symm⟩

end SServer.Proto
