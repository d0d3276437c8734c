import SServer.Net.Send
import SServer.Net.Shutdown
import SServer.Table.Open

/-!
# SServer.Worker.Serv — a worker as the client of other servers

A worker connects to other servers, sends to them and reads from them with the
functions that the master uses for its clients. `do_fd_close` tells the two processes
apart by its argument, and `do_fd_send` always passes the master's. So a worker whose
send fails does not call `on_serv_closed`: it pushes a `BLK_CLOSE` on the `rq` of the
worker whose index stands in the entry, which is `0` for every server. In worker 0
that is its own `rq`, and the block closes a client's session; in any other worker
that queue has been unmapped.

* `servStep_cases`: one step of the worker, on either side of the condition.
* `servs_kept_iff`: the result: no block is pushed for a server, each closing is told to the
  service, and no session is touched, in every state of a run.
* `staleSend_not_kept`: a `send` that fails in worker 0: `on_serv_closed` is not called, and the
  session of client 9 is gone.

The other server is the answers of `connect`, `send` and `recv`. What it sends is cut into
messages in `SServer.Net.Shutdown`; here only the closings count.
-/

namespace SServer.Worker

open SServer.Lib SServer.Net SServer.Queue SServer.Table

variable {Q : Type}

/-! ## The worker -/

/-- The callbacks of the loaded object, with those about servers. -/
structure ServSo (Q : Type) extends So Q where
  procServMsg : Proc (Desk Q)
  onServClosed : Nat → Desk Q → Desk Q

/-- A worker with its table of descriptors. `alone` is the worker as it would be with
the master's blocks in its `rq` only, and `authors` tells of each block in `rq` whether
it is one of these. `pushed` are the blocks that the worker has pushed on receive
queues, `told` the calls of `on_serv_closed`, and `closed` the descriptors of servers
that have been closed. A worker stops running in an access to unmapped memory, and in a
push that does not return. -/
structure ServSt (Q : Type) where
  ep : EpInfo
  work : WorkSt Q
  alone : WorkSt Q
  authors : List Bool
  pushed : List (Int × MemBlock)
  told : List Nat
  closed : List Nat
  running : Bool

/-- A worker behind `work_init`, with the descriptors of its pipe and of the multicast. -/
def servInit (i : Int) (pipefd mcastFd : Nat) (w : WorkSt Q) : ServSt Q :=
  { ep := addFdinfo mcastFd i .mcast ⟨0, 0⟩ (addFdinfo pipefd i .pipe ⟨0, 0⟩ epInit)
    work := w
    alone := w
    authors := []
    pushed := []
    told := []
    closed := []
    running := true }

/-- `mq_push(&workmgr.works[k].rq, ..)` in worker `i`. The queues of the others have been
unmapped by `work_init`. -/
def ServSt.pushRq (i k : Int) (blk : MemBlock) (s : ServSt Q) : ServSt Q :=
  let s := { s with pushed := s.pushed ++ [(k, blk)] }
  if k = i then
    match mqPush s.work.rq blk nullData with
    | some (r, rq) =>
      { s with
        work := { s.work with rq := rq }
        authors := if r = 0 then s.authors ++ [false] else s.authors }
    | none => { s with running := false }
  else { s with running := false }

/-- `so.on_serv_closed(fd)`. -/
def ServSt.tell (so : ServSo Q) (fd : Nat) (s : ServSt Q) : ServSt Q :=
  { s with
    work := { s.work with desk := so.onServClosed fd s.work.desk }
    alone := { s.alone with desk := so.onServClosed fd s.alone.desk }
    told := s.told ++ [fd] }

/-- `do_fd_close` in worker `i`. -/
def servFdClose (so : ServSo Q) (i : Int) (ismaster : Bool) (fd : Nat) (s : ServSt Q) :
    Option (ServSt Q) :=
  let pfd := s.ep.fds fd
  if pfd.type = .null then some s
  else
    let s := if ismaster then s.pushRq i pfd.idx (closeBlk pfd.idx fd) else s.tell so fd
    if s.running = true then
      (closeSlot fd s.ep).map fun ep => { s with ep := ep, closed := s.closed ++ [fd] }
    else some s

/-! ## Steps -/

/-- `connect_to_serv`, with what `safe_tcp_connect` and `epoll_ctl` answer;
`send_to_serv`; a server's socket is readable, or writable; the master pushes a block;
an iteration of `handle_mq_recv`. What a callback sends is sent in steps behind it. -/
inductive ServLbl where
  | connect (fd : Nat) (ctl : Bool) (addr : FdAddr)
  | send (fd : Nat) (alloc : Option Mem) (data : Mem) (len : Int) (outs : List SendRes)
  | readable (fd : Nat) (mapped : Bool) (outs : List RecvRes)
  | writable (fd : Nat) (outs : List SendRes)
  | master (blk : MemBlock) (data : Mem)
  | recv

/-- `send_to_serv`, with the answers to exactly the calls of `send` made. -/
def sendToServ (so : ServSo Q) (i max : Int) (fd : Nat) (alloc : Option Mem) (data : Mem)
    (len : Int) (outs : List SendRes) (s : ServSt Q) : Option (ServSt Q) :=
  match doFdSend max alloc (sendConn (s.ep.fds fd)) data len outs with
  | .ok (_, c, []) =>
    if c.registered then
      some { s with ep := s.ep.setFd fd { s.ep.fds fd with buff := c.buff } }
    else servFdClose so i true fd s
  | _ => none

/-- `proc_serv_msg` in the worker and in the one it would be. -/
def bothProc (proc : Proc (Desk Q)) : Proc (Desk Q × Desk Q) := fun w fd data n =>
  (proc w.1 fd data n, proc w.2 fd data n)

/-- The `EPOLLIN` branch of `work_dispatch` for a server. -/
def servReadable (so : ServSo Q) (get : Mem → Int → Int32) (i max : Int) (fd : Nat)
    (mapped : Bool) (outs : List RecvRes) (s : ServSt Q) : Option (ServSt Q) :=
  match doProcSvr (bothProc so.procServMsg) get max (Int32.ofNat fd) mapped outs
      (recvConn (s.ep.fds fd)) (s.work.desk, s.alone.desk) with
  | none => none
  | some (r, c, desk, desk') =>
    let s :=
      { s with work := { s.work with desk := desk }, alone := { s.alone with desk := desk' } }
    if r = -1 then servFdClose so i false fd s
    else
      let ep := s.ep.setFd fd { s.ep.fds fd with buff := c.buff }
      (if c.readlist then doAddToReadlist fd ep else doDelFromReadlist fd ep).map fun ep =>
        { s with ep := ep }

/-- The `EPOLLOUT` branch. -/
def servWritable (so : ServSo Q) (i : Int) (fd : Nat) (outs : List SendRes) (s : ServSt Q) :
    Option (ServSt Q) :=
  match epollOut (sendConn (s.ep.fds fd)) outs with
  | .ok (c, []) =>
    if c.registered then
      some { s with ep := s.ep.setFd fd { s.ep.fds fd with buff := c.buff } }
    else servFdClose so i false fd s
  | _ => none

/-- An iteration of `handle_mq_recv`. -/
def servRecv (so : ServSo Q) (push : SqPush Q) (s : ServSt Q) : Option (ServSt Q) :=
  (recvOne so.toSo push s.work).map fun w =>
    { s with
      work := w
      alone := if s.authors.headD true then (recvOne so.toSo push s.alone).getD s.alone
        else s.alone
      authors := s.authors.tail }

/-- One step of worker `i`. The kernel gives `connect_to_serv` no number in use. -/
def servStep (so : ServSo Q) (push : SqPush Q) (get : Mem → Int → Int32) (i max : Int)
    (l : ServLbl) (s : ServSt Q) : Option (ServSt Q) :=
  if s.running = true then
    match l with
    | .connect fd ctl addr =>
      if 0 < fd ∧ ¬ Registered s.ep fd then
        some { s with ep := (addFdinfoToEpinfo ctl fd 0 .svr addr s.ep).2 }
      else none
    | .send fd alloc data len outs =>
      if (s.ep.fds fd).type = .svr then sendToServ so i max fd alloc data len outs s else none
    | .readable fd mapped outs =>
      if (s.ep.fds fd).type = .svr then servReadable so get i max fd mapped outs s else none
    | .writable fd outs =>
      if (s.ep.fds fd).type = .svr then servWritable so i fd outs s else none
    | .master blk data =>
      if blk.Pushable then
        match mqPush s.work.rq blk data, mqPush s.alone.rq blk data with
        | some (r, rq), some (_, rq') =>
          some
            { s with
              work := { s.work with rq := rq }
              alone := { s.alone with rq := rq' }
              authors := if r = 0 then s.authors ++ [true] else s.authors }
        | _, _ => none
      else none
    | .recv => servRecv so push s
  else none

/-! ## What is to hold -/

/-- The worker has pushed no block on a receive queue; each server that was closed was
told of by one call of `on_serv_closed`; and the sessions are those that the master's
blocks have made. -/
structure ServOk (s : ServSt Q) : Prop where
  pushed : s.pushed = []
  told : s.told = s.closed
  sessions : s.work.desk.fds = s.alone.desk.fds

/-- The condition: no `send` fails in `send_to_serv`, and its message does not make the
buffer exceed its limit. -/
def SendsOn (max : Int) : ServLbl → ServSt Q → Prop
  | .send fd alloc _ len outs, s =>
    .err ∉ outs ∧ ¬ Overflows max alloc (s.ep.fds fd).buff len outs
  | _, _ => True

/-- The invariant: the worker is as it would be. -/
structure ServInv (s : ServSt Q) : Prop where
  pushed : s.pushed = []
  told : s.told = s.closed
  same : s.work = s.alone
  authors : ∀ a ∈ s.authors, a = true
  running : s.running = true

/-! ## The steps keep it -/

/-- No server, and no session touched. -/
theorem servInit_inv (i : Int) (pipefd mcastFd : Nat) (w : WorkSt Q) :
    ServInv (servInit i pipefd mcastFd w) := by
  constructor
  · rfl
  · rfl
  · rfl
  · intro a ha
    simp [servInit] at ha
  · rfl

/-- A change of the table alone keeps the invariant. -/
theorem ServInv.setEp {s : ServSt Q} (hs : ServInv s) (ep : EpInfo) :
    ServInv { s with ep := ep } :=
  ⟨hs.pushed, hs.told, hs.same, hs.authors, hs.running⟩

/-- A worker's own `do_fd_close` tells of the server that it closes. -/
theorem servFdClose_keeps {so : ServSo Q} {i : Int} {fd : Nat} {s t : ServSt Q} (hs : ServInv s)
    (h : servFdClose so i false fd s = some t) : ServInv t := by
  unfold servFdClose at h
  simp only at h
  split at h
  · cases h
    exact hs
  · simp only [Bool.false_eq_true, if_false] at h
    rw [if_pos (show (s.tell so fd).running = true from hs.running)] at h
    rcases Option.map_eq_some_iff.mp h with ⟨ep, _, heq⟩
    cases heq
    constructor
    · exact hs.pushed
    · simp only [ServSt.tell, hs.told]
    · simp only [ServSt.tell, hs.same]
    · exact hs.authors
    · exact hs.running

/-- The master's pushes a block. -/
theorem servFdClose_pushes {so : ServSo Q} {i : Int} {fd : Nat} {s t : ServSt Q}
    (hreg : (s.ep.fds fd).type ≠ .null) (h : servFdClose so i true fd s = some t) :
    t.pushed ≠ [] := by
  have hpushed : ∀ k blk, (s.pushRq i k blk).pushed ≠ [] := by
    intro k blk
    unfold ServSt.pushRq
    simp only
    split
    · split
      · simp
      · simp
    · simp
  unfold servFdClose at h
  simp only [if_neg hreg, if_true] at h
  split at h
  · rcases Option.map_eq_some_iff.mp h with ⟨ep, _, heq⟩
    cases heq
    exact hpushed _ _
  · cases h
    exact hpushed _ _

/-- `send_to_serv`, on either side of the condition. -/
theorem sendToServ_cases {so : ServSo Q} {i max : Int} {fd : Nat} {alloc : Option Mem}
    {data : Mem} {len : Int} {outs : List SendRes} {s t : ServSt Q} (hs : ServInv s)
    (htype : (s.ep.fds fd).type = .svr)
    (h : sendToServ so i max fd alloc data len outs s = some t) :
    SendsOn max (.send fd alloc data len outs) s ∧ ServInv t ∨
      ¬ SendsOn max (.send fd alloc data len outs) s ∧ t.pushed ≠ [] := by
  have hreg : (sendConn (s.ep.fds fd)).registered = true := by
    simp [sendConn, htype]
  unfold sendToServ at h
  split at h
  swap
  · cases h
  next r c hsend =>
  have hcloses := doFdSend_closes_iff hreg hsend
  by_cases hopen : c.registered = true
  · left
    rw [if_pos hopen] at h
    cases h
    rw [hopen] at hcloses
    have hno : ¬ (.err ∈ outs ∨ Overflows max alloc (s.ep.fds fd).buff len outs) := fun hbad =>
      absurd (hcloses.mpr hbad) (by simp)
    exact ⟨not_or.mp hno, hs.setEp _⟩
  · right
    rw [if_neg hopen] at h
    refine ⟨fun hon => ?_, servFdClose_pushes (by simp [htype]) h⟩
    rcases hcloses.mp (by simpa using hopen) with herr | hover
    · exact hon.1 herr
    · exact hon.2 hover

/-- What `proc_serv_msg` keeps, `do_proc_svr` keeps. -/
theorem doProcSvr_keeps {W : Type} (I : W → Prop) {proc : Proc W}
    (hproc : ∀ w fd data n, I w → I (proc w fd data n)) {get : Mem → Int → Int32} {max : Int}
    {fd : Int32} {mapped : Bool} {outs : List RecvRes} {c c' : RecvConn} {r : Int} {w w' : W}
    (hw : I w) (h : doProcSvr proc get max fd mapped outs c w = some (r, c', w')) : I w' := by
  refine handlerOf_keeps (fun _ w => I w) ?_ (fun _ _ _ _ => hw) h
  intro v buff tmp w hw
  unfold svrPass
  simp only
  split
  · split
    · exact hproc w fd _ _ hw
    · exact hproc w fd _ _ hw
  · exact hw

/-- The `EPOLLIN` branch keeps the invariant. -/
theorem servReadable_keeps {so : ServSo Q} {get : Mem → Int → Int32} {i max : Int} {fd : Nat}
    {mapped : Bool} {outs : List RecvRes} {s t : ServSt Q} (hs : ServInv s)
    (h : servReadable so get i max fd mapped outs s = some t) : ServInv t := by
  unfold servReadable at h
  split at h
  · cases h
  next r c desk desk' hproc =>
  have hsame : desk = desk' := by
    refine doProcSvr_keeps (fun w : Desk Q × Desk Q => w.1 = w.2) ?_ ?_ hproc
    · intro w fd data n hw
      simp only [bothProc, hw]
    · simp only [hs.same]
  have hkeeps : ServInv
      { s with work := { s.work with desk := desk }, alone := { s.alone with desk := desk' } } := by
    constructor
    · exact hs.pushed
    · exact hs.told
    · simp only [hs.same, hsame]
    · exact hs.authors
    · exact hs.running
  simp only at h
  split at h
  · exact servFdClose_keeps hkeeps h
  · rcases Option.map_eq_some_iff.mp h with ⟨ep, _, heq⟩
    cases heq
    exact hkeeps.setEp ep

/-- The `EPOLLOUT` branch keeps it. -/
theorem servWritable_keeps {so : ServSo Q} {i : Int} {fd : Nat} {outs : List SendRes}
    {s t : ServSt Q} (hs : ServInv s) (h : servWritable so i fd outs s = some t) : ServInv t := by
  unfold servWritable at h
  split at h
  · split at h
    · cases h
      exact hs.setEp _
    · exact servFdClose_keeps hs h
  · cases h

/-- `handle_mq_recv` keeps it. -/
theorem servRecv_keeps {so : ServSo Q} {push : SqPush Q} {s t : ServSt Q} (hs : ServInv s)
    (h : servRecv so push s = some t) : ServInv t := by
  unfold servRecv at h
  rcases Option.map_eq_some_iff.mp h with ⟨w, hw, heq⟩
  have hhead : s.authors.headD true = true := by
    cases hauthors : s.authors with
    | nil => rfl
    | cons a rest =>
      apply hs.authors
      rw [hauthors]
      exact List.mem_cons_self
  cases heq
  constructor
  · exact hs.pushed
  · exact hs.told
  · show w = if s.authors.headD true = true then _ else _
    rw [if_pos hhead, ← hs.same, hw]
    rfl
  · intro a ha
    exact hs.authors a (List.mem_of_mem_tail ha)
  · exact hs.running

/-- A block of the master keeps it. -/
theorem masterPush_keeps {s : ServSt Q} (hs : ServInv s) {blk : MemBlock} {data : Mem} {r r' : Int}
    {rq rq' : MemQueue} (hpush : mqPush s.work.rq blk data = some (r, rq))
    (hpush' : mqPush s.alone.rq blk data = some (r', rq')) :
    ServInv
      { s with
        work := { s.work with rq := rq }
        alone := { s.alone with rq := rq' }
        authors := if r = 0 then s.authors ++ [true] else s.authors } := by
  rw [← hs.same] at hpush'
  cases hpush.symm.trans hpush'
  constructor
  · exact hs.pushed
  · exact hs.told
  · simp only [hs.same]
  · intro a ha
    simp only at ha
    split at ha
    · rcases List.mem_append.mp ha with hold | hnew
      · exact hs.authors a hold
      · exact List.mem_singleton.mp hnew
    · exact hs.authors a ha
  · exact hs.running

/-- **One step of the worker**, on either side of the condition. -/
theorem servStep_cases {so : ServSo Q} {push : SqPush Q} {get : Mem → Int → Int32} {i max : Int}
    {l : ServLbl} {s t : ServSt Q} (hs : ServInv s) (h : servStep so push get i max l s = some t) :
    SendsOn max l s ∧ ServInv t ∨ ¬ SendsOn max l s ∧ ¬ ServOk t := by
  unfold servStep at h
  rw [if_pos hs.running] at h
  cases l with
  | connect fd ctl addr =>
    left
    simp only at h
    split at h
    · cases h
      exact ⟨trivial, hs.setEp _⟩
    · cases h
  | send fd alloc data len outs =>
    simp only at h
    split at h
    · next htype =>
      -- a send that fails closes the server as if it were a client
      rcases sendToServ_cases hs htype h with hgood | ⟨hno, hpushed⟩
      · exact Or.inl hgood
      · exact Or.inr ⟨hno, fun hok => hpushed hok.pushed⟩
    · cases h
  | readable fd mapped outs =>
    left
    simp only at h
    split at h
    · exact ⟨trivial, servReadable_keeps hs h⟩
    · cases h
  | writable fd outs =>
    left
    simp only at h
    split at h
    · exact ⟨trivial, servWritable_keeps hs h⟩
    · cases h
  | master blk data =>
    left
    simp only at h
    split at h
    · split at h
      · next hpush hpush' =>
        cases h
        exact ⟨trivial, masterPush_keeps hs hpush hpush'⟩
      · cases h
    · cases h
  | recv =>
    left
    exact ⟨trivial, servRecv_keeps hs h⟩

/-- **A worker keeps to its own side** in every state of a run, exactly when no `send` in
`send_to_serv` fails and no message of it makes the buffer exceed its limit. -/
theorem servs_kept_iff (so : ServSo Q) (push : SqPush Q) (get : Mem → Int → Int32) (i max : Int)
    (pipefd mcastFd : Nat) (w : WorkSt Q) (ls : List ServLbl) :
    Throughout (servStep so push get i max) ServOk ls (servInit i pipefd mcastFd w) ↔
      Along (servStep so push get i max) (SendsOn max) ls (servInit i pipefd mcastFd w) := by
  apply throughout_iff_along ServInv
  · intro s hs
    exact ⟨hs.pushed, hs.told, by rw [hs.same]⟩
  · intro l s t hs h
    exact servStep_cases hs h
  · exact servInit_inv i pipefd mcastFd w

/-! ## A server's number is a client's -/

/-- Callbacks that do nothing. -/
def quietSo : ServSo Unit :=
  { procCliMsg := fun _ _ w => (0, nullData, w)
    onCliClosed := fun _ w => w
    procServMsg := fun w _ _ _ => w
    onServClosed := fun _ w => w }

/-- A worker with an empty `rq` of 128 bytes and no session. -/
def freshWork : WorkSt Unit :=
  { rq := mqInit 128, desk := { fds := fun _ => none, sq := () } }

/-- Worker 0 is connected to a server by descriptor 9 when client 9 comes. A send to the
server fails, and the worker reads its `rq` once more. -/
def staleSend : List ServLbl :=
  [.connect 9 true ⟨0, 0⟩, .master (openBlk 0 9) nullData, .recv,
    .send 9 none nullData 4 [.err], .recv]

/-- The worker has pushed a `BLK_CLOSE`, `on_serv_closed` was not called, and the session of
client 9 is gone. -/
theorem staleSend_not_kept :
    ∃ s, exec (servStep quietSo (fun q _ _ => (0, q)) (fun _ _ => 5) 0 64) staleSend
        (servInit 0 4 5 freshWork) = some s ∧
      s.pushed ≠ [] ∧ s.told ≠ s.closed ∧ s.work.desk.fds ≠ s.alone.desk.fds := by
  let run := exec (servStep quietSo (fun q _ _ => (0, q)) (fun _ _ => 5) 0 64) staleSend
    (servInit 0 4 5 freshWork)
  have hsome : run.isSome = true := by
    decide +kernel
  have hall : ∀ s ∈ run, s.pushed.length = 1 ∧ s.told = [] ∧ s.closed = [9] ∧
      (s.work.desk.fds 9).isSome = false ∧ (s.alone.desk.fds 9).isSome = true := by
    decide +kernel
  rcases Option.isSome_iff_exists.mp hsome with ⟨s, hs⟩
  rcases hall s hs with ⟨hpushed, htold, hclosed, hgone, hthere⟩
  refine ⟨s, hs, ?_, ?_, ?_⟩
  · intro hnil
    rw [hnil] at hpushed
    cases hpushed
  · rw [htold, hclosed]
    simp
  · intro hsame
    rw [hsame, hthere] at hgone
    cases hgone

end SServer.Worker
