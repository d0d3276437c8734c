import SServer.Net.Send
import SServer.Net.Shutdown

/-!
# SServer.Net.Asserts — `assert(total > 0)`

`safe_tcp_send_n` and `safe_tcp_recv_n` assert that they are asked for at least one byte.
Here are all places from which the two processes call them, each with the test that
stands before it: `slen > 0` before every `do_fd_write`, `rlen < max_buf_len` before
`safe_tcp_recv_n`, and none before the direct send of `do_fd_send`. Its length is that of
a block which a worker has pushed. The room that is left for `safe_tcp_recv_n` is a
difference of ints, which wraps.

The result (`assert_holds_iff`): in every call, on a connection in any state, the
assertion holds exactly when the call is no direct send of no byte, and no read with so
negative an `rlen` that the room is no int. A length that `get_msg_len` answers leaves such
an `rlen` (`asserts_fail`); in a run whose lengths are good no read fails the assertion
(`frames_read_holds`).

* `doFdSend_fault_iff`, `handleRead_fault_iff`: the two functions in which an assertion can
  fail, with the exact inputs.
* `doFdWrite_fault`, `epollOut_fault`, `closeEntry_fault`: the other places, where it cannot.

A call that is given too few answers of the kernel has no result either; the answers are those
of a run that goes on, and the theorem is about the assertion alone.
-/

namespace SServer.Net

open SServer.Lib SServer.Queue

variable {Q : Type}

/-! ## The calls -/

/-- What a worker asks of the master. -/
inductive Request where
  | sendToCli (len : Int32)
  | closeCli

/-- The block that `send_to_cli` or `close_cli` pushes to `sq`. -/
def Request.block (id fd : Int32) : Request → MemBlock
  | .sendToCli len =>
    { id := id, fd := fd, type := MemBlockType.blkData.code, len := len + Int32.ofInt blkHeadLen }
  | .closeCli =>
    { id := id, fd := fd, type := MemBlockType.blkClose.code, len := Int32.ofInt blkHeadLen }

/-- `do_fd_close`, which leaves a connection alone that is closed already. -/
def SendConn.doFdClose (c : SendConn) : SendConn := if c.registered then c.close else c

/-- `do_blk_send`, for the connection of the block's descriptor. -/
def doBlkSend (max : Int) (alloc : Option Mem) (c : SendConn) (blk : MemBlock) (data : Mem)
    (outs : List SendRes) : SendOut :=
  if blk.type = MemBlockType.blkClose.code then .ok (0, c.doFdClose, outs)
  else doFdSend max alloc c data (blk.len - Int32.ofInt blkHeadLen).toInt outs

/-- `send_to_serv`. -/
def sendToServ (max : Int) (alloc : Option Mem) (c : SendConn) (msg : Mem) (len : Int32)
    (outs : List SendRes) : SendOut := doFdSend max alloc c msg len.toInt outs

/-- An entry of the closelist in `handle_closelist`. -/
def closeEntry (c : SendConn) (outs : List SendRes) : Except Fault (SendConn × List SendRes) :=
  if 0 < c.buff.slen then
    match doFdWrite c outs with
    | .error e => .error e
    | .ok (r, c, outs) =>
      let c := if r = -1 then { c with buff := { c.buff with slen := 0 } } else c
      .ok (c.doFdClose, outs)
  else .ok (c.doFdClose, outs)

/-- What went wrong in a call. -/
def faultOf {α : Type} : Except Fault α → Option Fault
  | .ok _ => none
  | .error e => some e

/-- The calls that lead to `safe_tcp_send_n` or `safe_tcp_recv_n`: the master handles a
worker's request; a worker calls `send_to_serv`; either of them handles an event with
`EPOLLOUT`, an entry of the closelist, or something to read. -/
inductive NetCall where
  | request (req : Request) (id fd : Int32) (alloc : Option Mem) (data : Mem)
  | toServ (alloc : Option Mem) (msg : Mem) (len : Int32)
  | writable
  | closing
  | readable (mapped readlist : Bool) (recvs : List RecvRes)

/-- What goes wrong in a call on the connection `c`, when `send` answers `outs`. -/
def NetCall.fault (max : Int) (c : SendConn) (outs : List SendRes) : NetCall → Option Fault
  | .request req id fd alloc data => faultOf (doBlkSend max alloc c (req.block id fd) data outs)
  | .toServ alloc msg len => faultOf (sendToServ max alloc c msg len outs)
  | .writable => faultOf (epollOut c outs)
  | .closing => faultOf (closeEntry c outs)
  | .readable mapped readlist recvs =>
    faultOf (handleRead max mapped { buff := c.buff, readlist := readlist } recvs)

/-- The condition: no message without a byte for a connection on which nothing waits, and
no read into a mapped buffer whose room is more than an int counts. -/
def NetCall.AsksBytes (max : Int) (c : SendConn) : NetCall → Prop
  | .request (.sendToCli len) _ _ _ _ => 0 < len.toInt ∨ c.buff.slen ≠ 0
  | .toServ _ _ len => 0 < len.toInt ∨ c.buff.slen ≠ 0
  | .readable _ _ _ => c.buff.rbf = .null ∨ max - c.buff.rlen < 2 ^ 31
  | _ => True

/-! ## The functions that assert -/

@[simp] theorem faultOf_ok {α : Type} (a : α) : faultOf (.ok a) = none := rfl

@[simp] theorem faultOf_error {α : Type} (e : Fault) :
    faultOf (.error e : Except Fault α) = some e := rfl

/-- Behind its assertion the loop does not assert. -/
theorem sendLoop_fault {total : Int} : ∀ (outs : List SendRes) (sent : Int),
    faultOf (sendLoop total sent outs) ≠ some .assertFailed := by
  intro outs
  induction outs with
  | nil =>
    intro sent
    unfold sendLoop
    split
    · simp
    · simp
  | cons o outs ih =>
    intro sent
    unfold sendLoop
    split
    · simp
    cases o with
    | sent n =>
      simp only
      split
      · simp
      · exact ih (sent + n)
    | eintr => exact ih sent
    | eagain => simp
    | err => simp

/-- No answer of `recv` fails the assertion: it stands in front of the loop. -/
theorem recvLoop_fault {total : Int} : ∀ (outs : List RecvRes) (got : List UInt8),
    faultOf (recvLoop total got outs) ≠ some .assertFailed := by
  intro outs
  induction outs with
  | nil =>
    intro got
    unfold recvLoop
    split
    · simp
    · simp
  | cons o outs ih =>
    intro got
    unfold recvLoop
    split
    · simp
    cases o with
    | data bs =>
      simp only
      split
      · simp
      · exact ih (got ++ bs)
    | eintr => exact ih got
    | eof => simp
    | eagain => simp
    | err => simp

/-- A call that asks for a byte at least meets it. -/
theorem safeTcpSendN_fault {total : Int} (htotal : 0 < total) (outs : List SendRes) :
    faultOf (safeTcpSendN total outs) ≠ some .assertFailed := by
  unfold safeTcpSendN
  rw [if_neg (by omega)]
  exact sendLoop_fault outs 0

/-- So does a read of a byte at least. -/
theorem safeTcpRecvN_fault {total : Int} (htotal : 0 < total) (outs : List RecvRes) :
    faultOf (safeTcpRecvN total outs) ≠ some .assertFailed := by
  unfold safeTcpRecvN
  rw [if_neg (by omega)]
  exact recvLoop_fault outs []

/-! ## The places they are called from -/

/-- `do_fd_write` with something waiting. -/
theorem doFdWrite_fault {c : SendConn} (hpos : 0 < c.buff.slen) (outs : List SendRes) :
    faultOf (doFdWrite c outs) ≠ some .assertFailed := by
  have hsend := safeTcpSendN_fault hpos outs
  unfold doFdWrite
  cases c.buff.sbf with
  | none =>
    simp only
    cases hres : safeTcpSendN c.buff.slen outs with
    | error e =>
      rw [hres] at hsend
      exact hsend
    | ok s =>
      simp only
      split
      · simp
      · simp
  | some sbf =>
    simp only
    cases hres : safeTcpSendN c.buff.slen outs with
    | error e =>
      rw [hres] at hsend
      exact hsend
    | ok s =>
      simp only
      split
      · simp
      · split
        · split
          · simp
          · simp
        · simp

/-- The end of `do_fd_send` sends nothing. -/
theorem sendRest_fault (max : Int) (alloc : Option Mem) (c : SendConn) (data : Mem) (len n : Int)
    (isSend : Bool) (outs : List SendRes) :
    faultOf (sendRest max alloc c data len n isSend outs) ≠ some .assertFailed := by
  have hkeep : ∀ d sbf, faultOf (sendKeep max d sbf data len n isSend outs) = none := by
    intro d sbf
    unfold sendKeep
    simp only
    split
    · rfl
    · rfl
  unfold sendRest
  split
  swap
  · simp
  cases c.buff.sbf with
  | none =>
    cases alloc with
    | none => simp
    | some fresh => simp
  | some sbf =>
    simp only
    split
    · cases alloc with
      | none => simp
      | some fresh => simp [hkeep]
    · simp [hkeep]

/-- **The direct send** asserts when there is nothing to send. -/
theorem doFdSend_fault_iff (max : Int) (alloc : Option Mem) (c : SendConn) (data : Mem)
    (len : Int) (outs : List SendRes) :
    faultOf (doFdSend max alloc c data len outs) ≠ some .assertFailed ↔
      0 < len ∨ c.buff.slen ≠ 0 := by
  -- the direct send, which is made only when nothing waits
  have hdirect : ∀ d isSend outs,
      faultOf (sendDirect max alloc d data len isSend outs) ≠ some .assertFailed ↔
        0 < len ∨ d.buff.slen ≠ 0 := by
    intro d isSend outs
    unfold sendDirect
    by_cases hzero : d.buff.slen = 0
    swap
    · rw [if_neg hzero]
      exact ⟨fun _ => Or.inr hzero, fun _ => sendRest_fault _ _ _ _ _ _ _ _⟩
    rw [if_pos hzero]
    by_cases hlen : 0 < len
    · refine ⟨fun _ => Or.inl hlen, fun _ => ?_⟩
      have hsend := safeTcpSendN_fault hlen outs
      cases hres : safeTcpSendN len outs with
      | error e =>
        rw [hres] at hsend
        exact hsend
      | ok s =>
        simp only
        split
        · simp
        · exact sendRest_fault _ _ _ _ _ _ _ _
    · have hassert : safeTcpSendN len outs = .error .assertFailed := if_pos (by omega)
      rw [hassert]
      simp [hlen, hzero]
  unfold doFdSend
  by_cases hpos : 0 < c.buff.slen
  swap
  · rw [if_neg hpos]
    exact hdirect c false outs
  rw [if_pos hpos]
  refine ⟨fun _ => Or.inr (by omega), fun _ => ?_⟩
  have hwrite := doFdWrite_fault hpos outs
  cases hres : doFdWrite c outs with
  | error e =>
    rw [hres] at hwrite
    exact hwrite
  | ok out =>
    rcases out with ⟨r, c₁, rest⟩
    simp only
    split
    · simp
    · -- behind `do_fd_write` something waits still, so there is no direct send
      rcases doFdWrite_waits hres with ⟨_, _, hpos₁⟩
      exact (hdirect c₁ true rest).mpr (Or.inr (by omega))

/-- An `EPOLLOUT` event writes only what waits. -/
theorem epollOut_fault (c : SendConn) (outs : List SendRes) :
    faultOf (epollOut c outs) ≠ some .assertFailed := by
  unfold epollOut
  simp only
  split
  · next hpos =>
    have hwrite := doFdWrite_fault hpos outs
    cases hres : doFdWrite c outs with
    | error e =>
      rw [hres] at hwrite
      exact hwrite
    | ok out => simp
  · simp

/-- So does `handle_closelist`. -/
theorem closeEntry_fault (c : SendConn) (outs : List SendRes) :
    faultOf (closeEntry c outs) ≠ some .assertFailed := by
  unfold closeEntry
  split
  · next hpos =>
    have hwrite := doFdWrite_fault hpos outs
    cases hres : doFdWrite c outs with
    | error e =>
      rw [hres] at hwrite
      exact hwrite
    | ok out => simp
  · simp

/-- The read of `n` bytes asserts when the room is no int. -/
theorem safeTcpRecvN_room_iff {max n : Int} (hmax : max < 2 ^ 31) (hn : -2 ^ 31 ≤ n)
    (hroom : n < max) (outs : List RecvRes) :
    faultOf (safeTcpRecvN (intSub max n) outs) ≠ some .assertFailed ↔ max - n < 2 ^ 31 := by
  rw [← intSub_pos_iff hmax hn hroom]
  constructor
  · intro hno
    by_contra hneg
    have hassert : safeTcpRecvN (intSub max n) outs = .error .assertFailed := if_pos (by omega)
    rw [hassert] at hno
    exact hno rfl
  · exact fun hpos => safeTcpRecvN_fault hpos outs

/-- A read into a mapped buffer fails it exactly when the room is no int: it wraps below zero
then. -/
theorem readMapped_fault_iff {max : Int} (hmax : max < 2 ^ 31) (mem : Mem) {c : RecvConn}
    (hlo : -2 ^ 31 ≤ c.buff.rlen) (outs : List RecvRes) :
    faultOf (readMapped max mem c outs) ≠ some .assertFailed ↔ max - c.buff.rlen < 2 ^ 31 := by
  unfold readMapped
  by_cases hfull : max ≤ c.buff.rlen
  · rw [if_pos hfull]
    exact ⟨fun _ => by omega, fun _ => by simp⟩
  rw [if_neg hfull, ← safeTcpRecvN_room_iff hmax hlo (by omega) outs]
  cases safeTcpRecvN (intSub max c.buff.rlen) outs with
  | error e => exact Iff.rfl
  | ok r =>
    simp only
    split
    · simp
    · simp

/-- A buffer that could not be mapped makes no difference to the room that is asked for. -/
theorem readFailed_fault_iff {max : Int} (hmax : max < 2 ^ 31) {c : RecvConn}
    (hlo : -2 ^ 31 ≤ c.buff.rlen) (outs : List RecvRes) :
    faultOf (readFailed max c outs) ≠ some .assertFailed ↔ max - c.buff.rlen < 2 ^ 31 := by
  unfold readFailed
  by_cases hfull : max ≤ c.buff.rlen
  · rw [if_pos hfull]
    exact ⟨fun _ => by omega, fun _ => by simp⟩
  rw [if_neg hfull, ← safeTcpRecvN_room_iff hmax hlo (by omega) outs]
  cases safeTcpRecvN (intSub max c.buff.rlen) outs with
  | error e => exact Iff.rfl
  | ok r =>
    simp only
    split
    · simp
    · simp

/-- **`handle_read`** tests that there is room, and asserts when the room is no int. It
starts from an empty buffer where none is mapped. -/
theorem handleRead_fault_iff {max : Int} (hmax : max < 2 ^ 31) (mapped : Bool) {c : RecvConn}
    (hlo : -2 ^ 31 ≤ c.buff.rlen) (outs : List RecvRes) :
    faultOf (handleRead max mapped c outs) ≠ some .assertFailed ↔
      c.buff.rbf = .null ∨ max - c.buff.rlen < 2 ^ 31 := by
  unfold handleRead
  cases hrbf : c.buff.rbf with
  | null =>
    refine ⟨fun _ => Or.inl rfl, fun _ => ?_⟩
    simp only
    split
    · refine (readMapped_fault_iff hmax _ ?_ outs).mpr ?_
      · simp
      · simp only
        omega
    · simp
  | failed =>
    rw [readFailed_fault_iff hmax hlo outs]
    exact ⟨Or.inr, fun h => h.resolve_left (by simp)⟩
  | mapped mem =>
    rw [readMapped_fault_iff hmax mem hlo outs]
    exact ⟨Or.inr, fun h => h.resolve_left (by simp)⟩

/-! ## The result -/

/-- The master sends as many bytes as `send_to_cli` was called with. -/
theorem sendToCli_len (id fd len : Int32) :
    ((Request.sendToCli len).block id fd).len - Int32.ofInt blkHeadLen = len :=
  Int32.add_sub_cancel len _

/-- **The assertion** holds in a call of either process, on a connection in any state,
exactly when the call is no message without a byte for a connection on which nothing
waits, and no read into a buffer whose room is no int. `max_buf_len` and `rlen` are ints. -/
theorem assert_holds_iff {max : Int} (hmax : max < 2 ^ 31) (call : NetCall) {c : SendConn}
    (hlo : -2 ^ 31 ≤ c.buff.rlen) (outs : List SendRes) :
    call.fault max c outs ≠ some .assertFailed ↔ call.AsksBytes max c := by
  cases call with
  | request req id fd alloc data =>
    cases req with
    | sendToCli len =>
      have hdata : ((Request.sendToCli len).block id fd).type ≠ MemBlockType.blkClose.code := by
        change MemBlockType.blkData.code ≠ MemBlockType.blkClose.code
        decide
      simp only [NetCall.fault, doBlkSend]
      rw [if_neg hdata, sendToCli_len]
      exact doFdSend_fault_iff max alloc c data len.toInt outs
    | closeCli =>
      have hclose : (Request.closeCli.block id fd).type = MemBlockType.blkClose.code := rfl
      simp only [NetCall.fault, doBlkSend]
      rw [if_pos hclose]
      simp [NetCall.AsksBytes]
  | toServ alloc msg len => exact doFdSend_fault_iff max alloc c msg len.toInt outs
  | writable => exact ⟨fun _ => trivial, fun _ => epollOut_fault c outs⟩
  | closing => exact ⟨fun _ => trivial, fun _ => closeEntry_fault c outs⟩
  | readable mapped readlist recvs =>
    exact handleRead_fault_iff (c := ⟨c.buff, readlist⟩) hmax mapped hlo recvs

/-- A connection on which nothing waits, with `rlen` bytes received. -/
def holding (rlen : Int) (mem : Mem) : SendConn :=
  { buff := { emptyBuff with rlen := rlen, rbf := .mapped mem }
    registered := true
    epollout := false
    wire := [] }

/-- A reply of one byte, and a read with room for all but four bytes. -/
theorem assert_holds_iff_oneByte :
    NetCall.fault 65536 (holding 4 fun _ => 0) [.eagain]
        (.request (.sendToCli 1) 0 5 none fun _ => 7) ≠ some .assertFailed ∧
      NetCall.fault 65536 (holding 4 fun _ => 0) [] (.readable true false [.data [9], .eagain]) ≠
        some .assertFailed := by
  have hlo : -2 ^ 31 ≤ (holding 4 fun _ => 0).buff.rlen := by decide
  constructor
  · exact (assert_holds_iff (by decide) _ hlo _).mpr (Or.inl (by decide))
  · exact (assert_holds_iff (by decide) _ hlo _).mpr (Or.inr (by decide))

/-- While `rlen` is not negative, no read fails the assertion. So it is in every run of the
master's read path whose lengths are good. -/
theorem frames_read_holds (push : Push Q) {max : Int} (h0 : 0 ≤ max) (hmax : max < 2 ^ 31)
    (fd idx : Int32) (q : Q) {ls : List FrameLbl} {s : FrameSt Q}
    (hrun : exec (frameStep push max fd idx) ls (frameInit q) = some s)
    (hgood : Along (frameStep push max fd idx) UsesGoodLen ls (frameInit q)) (mapped : Bool)
    (recvs : List RecvRes) : faultOf (handleRead max mapped s.conn recvs) ≠ some .assertFailed := by
  have hinv : FrameInv max s := by
    refine exec_invariant (FrameInv max) ?_ (frameInv_init h0 q) hgood hrun
    intro l s t hs hl hstep
    cases l with
    | read mapped outs => exact frameRead_inv hs hstep
    | pass v => exact framePass_inv hs hl hstep
  have hrlen := hinv.ok.2.1
  exact (handleRead_fault_iff hmax mapped (by omega) recvs).mpr (Or.inr (by omega))

/-- The bytes `00 00 00 80`, which read as the smallest int. -/
def minLen : List UInt8 := [0, 0, 0, 128]

/-- `send_to_cli(sess, msg, 0)` for a client to whom all has been sent aborts the master. And
a worker takes the smallest int for the length of a complete message: `do_proc_svr` returns
`0` with an `rlen` that has wrapped, and the next read from that server aborts it. -/
theorem asserts_fail :
    NetCall.fault 65536
        { buff := emptyBuff, registered := true, epollout := false, wire := [] } []
        (.request (.sendToCli 0) 0 5 none fun _ => 0) = some .assertFailed ∧
      (doProcSvr (fun n _ _ _ => n + 1) getMsgLen 65536 7 true [.data minLen, .eagain] recvInit
          0).map (fun (r, c, _) =>
            (r, c.buff.rlen, faultOf (handleRead 65536 true c [.data [9], .eagain]))) =
        some (0, -2147483644, some .assertFailed) := by
  constructor
  · decide
  · decide +kernel

end SServer.Net
