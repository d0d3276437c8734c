import SServer.Worker.Recv

/-!
# SServer.Proto.Model — the master and its workers

The system at the level of connections and blocks: the master's table of file
descriptors, per worker the two queues, the session table and where its receive
loop stands, and the kernel, which may hand out any closed number again. The
queues are the FIFO lists that the rings refine; a push may fail.

The callbacks of the loaded object are the worker's own steps: while one runs
(and also between two blocks, from a timer), it may send to and close any client
the worker has a session for.

Every connection has a number, in the order of the accepts. The blocks, the
sessions and the slots of the table carry it as a mark that no function reads:
what the code knows of a connection is its file descriptor.

* `sysStep`: one step of the master or of a worker; each carries the choices of the kernel, the
  queues and the callbacks.
* `doBlkSend_cases`: what `do_blk_send` does to the connection in the slot.

Bytes appear as payloads of blocks: how they are framed is `SServer.Net`, that a queue is a list
is `SServer.Queue`, and `SServer.Proto.Wire` puts the levels together. Master and workers live
as long as a run; restarts are in `SServer.Table.Restart` and `SServer.Master`. The connections
of a worker to other servers are in `SServer.Worker.Serv`.
-/

namespace SServer.Proto

open SServer.Lib SServer.Queue SServer.Worker

/-- The number of a connection. -/
abbrev Conn := Nat

/-! ## State -/

/-- A block in a queue; `len` is `blk_head_len` and the length of `data`. The mark
is absent on blocks that are about no connection. -/
structure Block where
  type : MemBlockType
  id : Int32
  fd : Int32
  data : List UInt8
  conn : Option Conn
deriving DecidableEq

/-- The type of an entry of `epinfo.fds` with its `idx`: `fd_type_null`,
`fd_type_listen`, `fd_type_cli`; and the zeroes of an entry never used, which read
as a listener of worker 0. -/
inductive Slot where
  | null
  | fresh
  | listen (idx : Int32)
  | cli (idx : Int32) (conn : Conn)
deriving DecidableEq

/-- The `idx` of an entry. -/
def Slot.idx : Slot → Int32
  | .null | .fresh => 0
  | .listen idx | .cli idx _ => idx

/-- The connection that is registered in an entry. -/
def Slot.conn : Slot → Option Conn
  | .cli _ conn => some conn
  | _ => none

/-- An `fdsess_t`, and the connection whose `BLK_OPEN` it was made from. -/
structure Sess where
  sess : FdSess
  conn : Option Conn
deriving DecidableEq

/-- Where `handle_mq_recv` stands with the oldest block of `rq`: not looked at
yet, in `proc_cli_msg`, in the `on_cli_closed` of `do_blk_close`, or handled, with
`mq_pop` to come. -/
inductive Phase where
  | idle
  | inProc (fd : Int32)
  | inClosed (fd : Int32)
  | handled
deriving DecidableEq

/-- A worker. `closing` are the calls of `close_cli` whose `on_cli_closed` is
running, innermost first; `garbled` says that `mq_pop` has missed the next block
and `rq` can no longer be read as blocks. -/
structure Work where
  rq : List Block
  sq : List Block
  fds : Fds Sess
  phase : Phase
  closing : List Int32
  garbled : Bool

/-- A connection as it was accepted: its file descriptor, its worker, and the
bytes of its `fd_addr_t`. -/
structure Accepted where
  fd : Int32
  idx : Int32
  addr : List UInt8
deriving DecidableEq

/-- What is seen of a connection on its way up: a message framed by `handle_cli`,
its session saved, a call of `proc_cli_msg` for one of its blocks, a call of
`on_cli_closed` for its session. -/
inductive Ev where
  | framed (conn : Conn) (data : List UInt8)
  | opened (x : Sess)
  | proc (conn : Option Conn) (data : List UInt8) (x : Sess)
  | onClosed (x : Sess)
deriving DecidableEq

/-- What a block of `sq` does to a connection: bytes of its payload are written
to the socket, or the connection is closed. -/
inductive Effect where
  | wrote (blk : Option Conn) (sock : Conn) (bytes : List UInt8)
  | closed (blk : Option Conn) (sock : Conn)
deriving DecidableEq

/-- The master, the workers, and what has been seen so far. -/
structure Sys where
  slots : Int32 → Slot
  works : Int32 → Work
  conns : List Accepted
  calls : List Ev
  effects : List Effect

/-- `sizeof(fd_addr_t)`, as the length of a payload. -/
def addrLen : Nat := fdAddrLen.toNat

/-- A worker that has just started. -/
def workInit : Work :=
  { rq := [], sq := [], fds := fun _ => none, phase := .idle, closing := [], garbled := false }

/-- The master has just started: `listeners` are the descriptors it listens on,
with the index of the worker each belongs to. -/
def sysInit (listeners : Int32 → Option Int32) : Sys :=
  { slots := fun fd => match listeners fd with
      | none => .fresh
      | some idx => .listen idx
    works := fun _ => workInit
    conns := []
    calls := []
    effects := [] }

/-- The master listens on descriptor 3 for worker 0. -/
def oneListener : Int32 → Option Int32 := fun fd => if fd = 3 then some 0 else none

/-! ## The master -/

/-- `mq_push` on the `rq` of a worker. -/
def Sys.pushRq (s : Sys) (idx : Int32) (blk : Block) (pushed : Bool) : Sys :=
  if pushed then
    let w := s.works idx
    { s with works := Function.update s.works idx { w with rq := w.rq ++ [blk] } }
  else s

/-- `mq_pop` on the `sq` of a worker. -/
def Sys.popSq (s : Sys) (i : Int32) : Sys :=
  let w := s.works i
  { s with works := Function.update s.works i { w with sq := w.sq.tail } }

/-- The `BLK_CLOSE` that `do_fd_close` builds. -/
def closeBlock (idx fd : Int32) (conn : Option Conn) : Block :=
  { type := .blkClose, id := idx, fd := fd, data := [], conn := conn }

/-- `do_fd_close`, with an `ismaster` of `1` or `2` alike. -/
def doFdClose (fd : Int32) (noted : Bool) (s : Sys) : Sys :=
  let slot := s.slots fd
  if slot = .null then s
  else
    let s := s.pushRq slot.idx (closeBlock slot.idx fd slot.conn) noted
    { s with slots := Function.update s.slots fd .null }

/-- `do_fd_send`: the connection takes the first `taken` bytes of the payload,
now or from its buffer later, and is `alive` behind the call or closed by it. A
number that is not a connection's takes nothing. (On an empty payload the
`assert` of `safe_tcp_send_n` may end the master.) -/
def doFdSend (blk : Block) (taken : Nat) (alive noted : Bool) (s : Sys) : Sys :=
  match s.slots blk.fd with
  | .cli _ conn =>
    let bytes := blk.data.take taken
    let s :=
      if bytes = [] then s else { s with effects := s.effects ++ [.wrote blk.conn conn bytes] }
    if alive then s else doFdClose blk.fd noted s
  | _ => doFdClose blk.fd noted s

/-- `do_blk_send`. -/
def doBlkSend (blk : Block) (taken : Nat) (alive noted : Bool) (s : Sys) : Sys :=
  if blk.type = .blkClose then
    match s.slots blk.fd with
    | .cli _ conn =>
      doFdClose blk.fd noted { s with effects := s.effects ++ [.closed blk.conn conn] }
    | _ => doFdClose blk.fd noted s
  else doFdSend blk taken alive noted s

/-- What the master does next, with the choices of the kernel and of the queues;
`noted` is the success of the push that `do_fd_close` makes, if it is called. -/
inductive MasterLbl where
  -- `do_fd_open`, with the number that `accept` returned
  | accept (lfd newfd : Int32) (addr : List UInt8) (pushed noted : Bool)
  -- a message that `handle_cli` frames and pushes
  | frame (fd : Int32) (data : List UInt8) (pushed noted : Bool)
  -- `handle_read` or `do_fd_write` returns `-1`
  | hangup (fd : Int32) (noted : Bool)
  -- one block in `handle_mq_send`
  | mqSend (i : Int32) (taken : Nat) (alive noted : Bool)

/-- One step of the master. -/
def masterStep : MasterLbl → Sys → Option Sys
  | .accept lfd newfd addr pushed noted, s =>
    match s.slots lfd with
    | .listen idx =>
      if 0 < newfd ∧ (s.slots newfd = .null ∨ s.slots newfd = .fresh) ∧ addr.length = addrLen then
        let conn := s.conns.length
        let blk : Block :=
          { type := .blkOpen, id := idx, fd := newfd, data := addr, conn := some conn }
        let s :=
          { s with
            slots := Function.update s.slots newfd (.cli idx conn)
            conns := s.conns ++ [{ fd := newfd, idx := idx, addr := addr }] }
        -- it is the listening descriptor that is closed
        if pushed then some (s.pushRq idx blk true) else some (doFdClose lfd noted s)
      else none
    | _ => none
  | .frame fd data pushed noted, s =>
    match s.slots fd with
    | .cli idx conn =>
      let blk : Block := { type := .blkData, id := idx, fd := fd, data := data, conn := some conn }
      let s := { s with calls := s.calls ++ [.framed conn data] }
      if pushed then some (s.pushRq idx blk true) else some (doFdClose fd noted s)
    | _ => none
  | .hangup fd noted, s =>
    match s.slots fd with
    | .cli _ _ => some (doFdClose fd noted s)
    | _ => none
  | .mqSend i taken alive noted, s =>
    match (s.works i).sq with
    | [] => none
    | blk :: _ => some ((doBlkSend blk taken alive noted s).popSq i)

/-! ## The workers -/

/-- `mq_push` on the worker's own `sq`. -/
def Work.pushSq (w : Work) (blk : Block) (pushed : Bool) : Work :=
  if pushed then { w with sq := w.sq ++ [blk] } else w

/-- `close_cli` up to the call of `on_cli_closed`. The queues of other workers are
not mapped, so a session with another `id` would end the worker. -/
def closeCli (i fd : Int32) (pushed : Bool) (w : Work) : Option (Work × List Ev) :=
  match getFd w.fds fd with
  | none => some (w, [])
  | some x =>
    if x.sess.id = i then
      let w := w.pushSq (closeBlock i fd x.conn) pushed
      some ({ w with closing := fd :: w.closing }, [.onClosed x])
    else none

/-- The header of a block. -/
def Block.head (blk : Block) : MemBlock :=
  { id := blk.id
    fd := blk.fd
    type := blk.type.code
    len := Int32.ofInt (blkHeadLen + blk.data.length) }

/-- The session that `do_blk_open` makes of a block. -/
def Block.toSess (blk : Block) : Sess :=
  { sess := openSess blk.head (ofBytes blk.data), conn := blk.conn }

/-- The `switch` of `handle_mq_recv`, up to the first callback. -/
def handleBlock (blk : Block) (pushed : Bool) (w : Work) : Work × List Ev :=
  match blk.type with
  | .blkData =>
    match getFd w.fds blk.fd with
    | none => ({ w with phase := .handled }, [])
    | some x => ({ w with phase := .inProc blk.fd }, [.proc blk.conn blk.data x])
  | .blkOpen =>
    if (getFd w.fds blk.fd).isSome = true ∨ blk.data.length ≠ addrLen then
      -- rejected; unless it has no payload, `mq_pop` will miss the next block
      let w := w.pushSq (closeBlock blk.id blk.fd blk.conn) pushed
      ({ w with phase := .handled, garbled := w.garbled || decide (blk.data ≠ []) }, [])
    else
      ({ w with phase := .handled, fds := saveFd w.fds blk.fd blk.toSess }, [.opened blk.toSess])
  | .blkClose =>
    match getFd w.fds blk.fd with
    | none => ({ w with phase := .handled }, [])
    | some x => ({ w with phase := .inClosed blk.fd }, [.onClosed x])
  | .blkAlign => ({ w with phase := .handled }, [])

/-- What a worker does next, with the choices of its callbacks and of `sq`. -/
inductive WorkLbl where
  -- `mq_get` and the `switch`, on the oldest block
  | recv (pushed : Bool)
  -- the same on whatever a garbled `rq` is read as
  | recvGarbled (blk : Block) (pushed : Bool)
  -- `proc_cli_msg` returns
  | procRet (r : Int) (pushed : Bool)
  -- the innermost `on_cli_closed` returns
  | closedRet
  -- `mq_pop`
  | pop
  | sendToCli (fd : Int32) (msg : List UInt8) (pushed : Bool)
  | closeCli (fd : Int32) (pushed : Bool)

/-- One step of worker `i`, and what is seen of it. -/
def workStep (i : Int32) : WorkLbl → Work → Option (Work × List Ev)
  | .recv pushed, w =>
    if w.phase = .idle ∧ w.closing = [] ∧ w.garbled = false then
      match w.rq with
      | [] => none
      | blk :: _ => some (handleBlock blk pushed w)
    else none
  | .recvGarbled blk pushed, w =>
    if w.phase = .idle ∧ w.closing = [] ∧ w.garbled = true ∧ blk.conn = none then
      some (handleBlock blk pushed w)
    else none
  | .procRet r pushed, w =>
    match w.phase with
    | .inProc fd =>
      if w.closing = [] then
        let w := { w with phase := .handled }
        if r ≠ 0 then closeCli i fd pushed w else some (w, [])
      else none
    | _ => none
  | .closedRet, w =>
    match w.closing with
    | fd :: rest => some ({ w with fds := removeFd w.fds fd, closing := rest }, [])
    | [] =>
      match w.phase with
      | .inClosed fd => some ({ w with fds := removeFd w.fds fd, phase := .handled }, [])
      | _ => none
  | .pop, w =>
    if w.phase = .handled ∧ w.closing = [] then
      some ({ w with phase := .idle, rq := if w.garbled then w.rq else w.rq.tail }, [])
    else none
  | .sendToCli fd msg pushed, w =>
    match getFd w.fds fd with
    | none => none
    | some x =>
      if x.sess.id = i then
        let blk : Block := { type := .blkData, id := i, fd := fd, data := msg, conn := x.conn }
        some (w.pushSq blk pushed, [])
      else none
  | .closeCli fd pushed, w => closeCli i fd pushed w

/-! ## The system -/

/-- A step of the master or of one of the workers. -/
inductive Lbl where
  | master (l : MasterLbl)
  | work (i : Int32) (l : WorkLbl)

/-- One step of the system. -/
def sysStep : Lbl → Sys → Option Sys
  | .master l, s => masterStep l s
  | .work i l, s => (workStep i l (s.works i)).map fun (w, evs) =>
      { s with works := Function.update s.works i w, calls := s.calls ++ evs }

/-! ## The parts of a step -/

/-- A push to `rq` changes no slot. -/
@[simp] theorem pushRq_slots (s : Sys) (idx : Int32) (blk : Block) (pushed : Bool) :
    (s.pushRq idx blk pushed).slots = s.slots := by
  cases pushed <;> rfl

/-- It accepts nobody. -/
@[simp] theorem pushRq_conns (s : Sys) (idx : Int32) (blk : Block) (pushed : Bool) :
    (s.pushRq idx blk pushed).conns = s.conns := by
  cases pushed <;> rfl

/-- It is no call of the loaded object. -/
@[simp] theorem pushRq_calls (s : Sys) (idx : Int32) (blk : Block) (pushed : Bool) :
    (s.pushRq idx blk pushed).calls = s.calls := by
  cases pushed <;> rfl

/-- It has no effect on a socket. -/
@[simp] theorem pushRq_effects (s : Sys) (idx : Int32) (blk : Block) (pushed : Bool) :
    (s.pushRq idx blk pushed).effects = s.effects := by
  cases pushed <;> rfl

/-- A closed descriptor is free, whatever it was. -/
@[simp] theorem doFdClose_slots (fd : Int32) (noted : Bool) (s : Sys) :
    (doFdClose fd noted s).slots = Function.update s.slots fd .null := by
  unfold doFdClose
  by_cases hnull : s.slots fd = .null
  · have hself := Function.update_eq_self fd s.slots
    rw [hnull] at hself
    rw [if_pos hnull, hself]
  · simp only [if_neg hnull, pushRq_slots]

/-- The rest of `do_fd_close` is a push to `rq`, or nothing. -/
theorem doFdClose_works (fd : Int32) (noted : Bool) (s : Sys) :
    s.slots fd = .null ∧ doFdClose fd noted s = s ∨
      s.slots fd ≠ .null ∧ doFdClose fd noted s =
        { s.pushRq (s.slots fd).idx (closeBlock (s.slots fd).idx fd (s.slots fd).conn) noted with
          slots := Function.update s.slots fd .null } := by
  unfold doFdClose
  by_cases hnull : s.slots fd = .null
  · exact Or.inl ⟨hnull, if_pos hnull⟩
  · right
    refine ⟨hnull, ?_⟩
    simp only [if_neg hnull, pushRq_slots]

/-- `do_fd_close` accepts nobody. -/
@[simp] theorem doFdClose_conns (fd : Int32) (noted : Bool) (s : Sys) :
    (doFdClose fd noted s).conns = s.conns := by
  rcases doFdClose_works fd noted s with ⟨_, heq⟩ | ⟨_, heq⟩
  · rw [heq]
  · rw [heq]
    exact pushRq_conns s _ _ noted

/-- It is no call of the loaded object. -/
@[simp] theorem doFdClose_calls (fd : Int32) (noted : Bool) (s : Sys) :
    (doFdClose fd noted s).calls = s.calls := by
  rcases doFdClose_works fd noted s with ⟨_, heq⟩ | ⟨_, heq⟩
  · rw [heq]
  · rw [heq]
    exact pushRq_calls s _ _ noted

/-- Effects are noted by its callers. -/
@[simp] theorem doFdClose_effects (fd : Int32) (noted : Bool) (s : Sys) :
    (doFdClose fd noted s).effects = s.effects := by
  rcases doFdClose_works fd noted s with ⟨_, heq⟩ | ⟨_, heq⟩
  · rw [heq]
  · rw [heq]
    exact pushRq_effects s _ _ noted

/-- The master only adds to `rq`. -/
@[simp] theorem pushRq_sq (s : Sys) (idx i : Int32) (blk : Block) (pushed : Bool) :
    ((s.pushRq idx blk pushed).works i).sq = (s.works i).sq := by
  cases pushed with
  | false => rfl
  | true =>
    by_cases heq : i = idx
    · rw [heq]
      simp [Sys.pushRq]
    · simp [Sys.pushRq, heq]

/-- It takes nothing from `sq`. -/
@[simp] theorem doFdClose_sq (fd i : Int32) (noted : Bool) (s : Sys) :
    ((doFdClose fd noted s).works i).sq = (s.works i).sq := by
  rcases doFdClose_works fd noted s with ⟨_, heq⟩ | ⟨_, heq⟩
  · rw [heq]
  · rw [heq]
    exact pushRq_sq s _ i _ noted

/-- What a block of `sq` does to the connection in its slot. -/
def effectsOf (blk : Block) (taken : Nat) : Slot → List Effect
  | .cli _ conn =>
    if blk.type = .blkClose then [.closed blk.conn conn]
    else if blk.data.take taken = [] then []
    else [.wrote blk.conn conn (blk.data.take taken)]
  | _ => []

/-- **What `do_blk_send` does**: its effects on the connection in the slot, and
`do_fd_close` on that slot, or not. -/
theorem doBlkSend_cases (blk : Block) (taken : Nat) (alive noted : Bool) (s : Sys) :
    blk.type ≠ .blkClose ∧ doBlkSend blk taken alive noted s =
        { s with effects := s.effects ++ effectsOf blk taken (s.slots blk.fd) } ∨
      doBlkSend blk taken alive noted s = doFdClose blk.fd noted
        { s with effects := s.effects ++ effectsOf blk taken (s.slots blk.fd) } := by
  unfold doBlkSend doFdSend effectsOf
  by_cases hclose : blk.type = .blkClose
  · right
    rw [if_pos hclose]
    cases hslot : s.slots blk.fd with
    | cli idx conn => simp only [if_pos hclose]
    | null | fresh | listen idx => simp
  rw [if_neg hclose]
  cases hslot : s.slots blk.fd with
  | cli idx conn =>
    simp only [if_neg hclose]
    by_cases hnil : blk.data.take taken = []
    · cases alive <;> simp [hnil, hclose]
    · cases alive <;> simp [hnil, hclose]
  | null | fresh | listen idx =>
    right
    simp

end SServer.Proto
