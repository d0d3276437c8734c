import SServer.Net.Shutdown
import SServer.Net.Send

/-!
# SServer.Net.Wakeup — the events of a connection that waits to write

What the kernel did not take waits in `sbf` for an event with `EPOLLOUT`. Events are
edge-triggered: the kernel queues one for each change of readiness, with the bits of the
interest mask that are ready then, and does not repeat it. Both dispatch loops handle an
event by one branch of an `if` / `else if` chain, and ask for `EPOLLIN` first.

The result: while bytes wait, the next write is to come, exactly when no event that has
both bits is handled meanwhile, and no `do_fd_write` sends all that waits and leaves the
socket writable. In the second case `slen` is not set to zero, so bytes that have been
sent wait on.

* `wakeEvent_cases`: an event is handled, on either side of the condition.
* `cliRead_keeps`, `svrRead_keeps`: the read handlers leave alone what waits to be written.
* `no_lost_wakeup_iff`: the result, in every state of a run of either process.
* `fullSocket_not_woken`: two connections that are written to no more.

The kernel is the list of the events to come and the readiness of each socket. `epoll_wait` may
hand over any of them at any time, and no order between descriptors is assumed. That a writable
socket is written to soon is not claimed.
-/

namespace SServer.Net

open SServer.Lib SServer.Queue

variable {Q W : Type}

/-! ## Descriptors in an epoll set -/

/-- The bits of an event, and what a socket is ready for. -/
structure Mask where
  epollin : Bool
  epollout : Bool
  epollhup : Bool
deriving DecidableEq

/-- The bits of both. -/
def Mask.or (m k : Mask) : Mask :=
  { epollin := m.epollin || k.epollin
    epollout := m.epollout || k.epollout
    epollhup := m.epollhup || k.epollhup }

/-- A descriptor: its entry, as the sending functions see it and with the flag for the
readlist and the worker's index, what its socket is ready for, and its events that no
loop has come to yet. `swallowed` tells that an event with `EPOLLOUT` was handled without
a try to write what waited. -/
structure WakeConn where
  conn : SendConn
  readlist : Bool
  idx : Int32
  ready : Mask
  events : List Mask
  swallowed : Bool

/-- A descriptor that is not in use. -/
def wakeInit : WakeConn :=
  { conn := { buff := emptyBuff, registered := false, epollout := false, wire := [] }
    readlist := false
    idx := 0
    ready := ⟨false, false, false⟩
    events := []
    swallowed := false }

/-- The ready bits that are in the interest mask: `EPOLLIN` and `EPOLLHUP` always are. -/
def WakeConn.mask (c : WakeConn) : Mask :=
  { c.ready with epollout := c.ready.epollout && c.conn.epollout }

/-- The kernel queues an event, unless nothing is ready. -/
def WakeConn.notify (c : WakeConn) : WakeConn :=
  if c.conn.registered = false ∨ c.mask = ⟨false, false, false⟩ then c
  else { c with events := c.events ++ [c.mask] }

/-- Behind `close` there are no events. -/
def WakeConn.closed (c : WakeConn) (conn : SendConn) : WakeConn :=
  { c with conn := conn, readlist := false, events := [] }

/-- Behind calls of `send`: the socket is not writable after `EAGAIN`, nor when they have
filled it. -/
def WakeConn.sent (c : WakeConn) (conn : SendConn) (outs : List SendRes) (full : Bool) :
    WakeConn :=
  if conn.registered = true then
    let writable := c.ready.epollout && decide (.eagain ∉ outs ∧ full = false)
    { c with conn := conn, ready := { c.ready with epollout := writable } }
  else c.closed conn

/-! ## What the loops do -/

/-- `do_fd_send`. A call of `mod_fd_to_epinfo` queues an event for what is ready. -/
def wakeSend (max : Int) (alloc : Option Mem) (data : Mem) (len : Int) (outs : List SendRes)
    (full : Bool) (c : WakeConn) : Option WakeConn :=
  match doFdSend max alloc c.conn data len outs with
  | .ok (r, conn, []) =>
    let isSend := decide (0 < c.conn.buff.slen)
    if r = 0 ∧ (0 < conn.buff.slen ∧ isSend = false ∨ conn.buff.slen = 0) then
      some (c.sent conn outs full).notify
    else some (c.sent conn outs full)
  | _ => none

/-- `handle_cli` or `do_proc_svr`, for a descriptor and the index in its entry. -/
abbrev ReadFn (W : Type) :=
  Int32 → Int32 → Bool → List RecvRes → RecvConn → W → Option (Int × RecvConn × W)

/-- The `EPOLLIN` branch, also for an entry of the readlist: nothing is left to read after
`EAGAIN`. -/
def wakeRead (read : ReadFn W) (fd : Int32) (mapped : Bool) (recvs : List RecvRes)
    (unread : Bool) (c : WakeConn) (w : W) : Option (WakeConn × W) :=
  (read fd c.idx mapped recvs ⟨c.conn.buff, c.readlist⟩ w).map fun (r, rc, w) =>
    if r = -1 then (c.closed c.conn.close, w)
    else
      let readable := c.ready.epollin && decide (.eagain ∉ recvs ∧ unread = true)
      ({ c with
          conn := { c.conn with buff := rc.buff }
          readlist := rc.readlist
          ready := { c.ready with epollin := readable } }, w)

/-- The `EPOLLOUT` branch. -/
def wakeWrite (outs : List SendRes) (full : Bool) (c : WakeConn) : Option WakeConn :=
  match epollOut c.conn outs with
  | .ok (conn, []) =>
    if conn.buff.slen = 0 then some (c.sent conn outs full).notify
    else some (c.sent conn outs full)
  | _ => none

/-- What `recv` and `send` answer while an event is handled: `unread` bytes may be left,
and the socket may be `full`. -/
structure Answers where
  mapped : Bool
  recvs : List RecvRes
  unread : Bool
  outs : List SendRes
  full : Bool

/-- The `if` / `else if` chain of both loops, for a client or a server. -/
def wakeEvent (read : ReadFn W) (fd : Int32) (m : Mask) (a : Answers) (c : WakeConn) (w : W) :
    Option (WakeConn × W) :=
  if m.epollin = true then
    let missed := m.epollout && decide (0 < c.conn.buff.slen)
    wakeRead read fd a.mapped a.recvs a.unread { c with swallowed := c.swallowed || missed } w
  else if m.epollout = true then (wakeWrite a.outs a.full c).map fun c => (c, w)
  -- `EPOLLHUP` is logged
  else some (c, w)

/-! ## Steps -/

/-- What happens to a descriptor: it is registered by `do_fd_open` or `connect_to_serv`;
its socket becomes ready for something; `do_fd_send` is called for it; the loop comes to
its oldest event, or to its entry in the readlist; it is closed by another call of
`do_fd_close`. What a callback sends is sent in steps behind it. -/
inductive WakeLbl where
  | register (idx : Int32) (ready : Mask)
  | change (bits : Mask)
  | send (alloc : Option Mem) (data : Mem) (len : Int) (outs : List SendRes) (full : Bool)
  | event (a : Answers)
  | readlist (a : Answers)
  | close

/-- One step of a descriptor. -/
def connStep (max : Int) (read : ReadFn W) (fd : Int32) (l : WakeLbl) (c : WakeConn) (w : W) :
    Option (WakeConn × W) :=
  if c.conn.registered = true then
    match l with
    | .register _ _ => none
    | .change bits => some ({ c with ready := c.ready.or bits }.notify, w)
    | .send alloc data len outs full =>
      (wakeSend max alloc data len outs full c).map fun c => (c, w)
    | .event a =>
      match c.events with
      | [] => none
      | m :: rest => wakeEvent read fd m a { c with events := rest } w
    | .readlist a =>
      if c.readlist = true then wakeRead read fd a.mapped a.recvs a.unread c w else none
    | .close => some (c.closed c.conn.close, w)
  else
    match l with
    | .register idx ready =>
      let conn := { wakeInit.conn with registered := true, wire := c.conn.wire }
      let fresh : WakeConn :=
        { wakeInit with conn := conn, idx := idx, ready := ready, swallowed := c.swallowed }
      some (fresh.notify, w)
    | _ => none

/-- A process: its descriptors, and what its handlers work on. -/
structure WakeSt (W : Type) where
  conns : Nat → WakeConn
  w : W

/-- No descriptor is in use. -/
def wakeStart (w : W) : WakeSt W := { conns := fun _ => wakeInit, w := w }

/-- One step of a process, with the descriptor it is about. -/
def wakeStep (max : Int) (read : ReadFn W) (l : Nat × WakeLbl) (s : WakeSt W) :
    Option (WakeSt W) :=
  (connStep max read (Int32.ofNat l.1) l.2 (s.conns l.1) s.w).map fun (c, w) =>
    { conns := Function.update s.conns l.1 c, w := w }

/-- The handler of `master_dispatch`. -/
def cliRead (push : Push Q) (get : Mem → Int → Int32) (max : Int) : ReadFn Q :=
  fun fd idx => handleCli push get max fd idx

/-- The handler of `work_dispatch`. -/
def svrRead (proc : Proc W) (get : Mem → Int → Int32) (max : Int) : ReadFn W :=
  fun fd _ => doProcSvr proc get max fd

/-! ## What is to hold -/

/-- While bytes of a connection wait, `EPOLLOUT` is in its interest mask, and an event
with it is still to come when the socket is writable. No event with it was handled
without a try to write what waited. -/
structure Woken (c : WakeConn) : Prop where
  comes : c.conn.registered = true → 0 < c.conn.buff.slen →
    c.conn.epollout = true ∧ (c.ready.epollout = true → ∃ m ∈ c.events, m.epollout = true)
  tried : c.swallowed = false

/-- So it is for all descriptors. -/
def AllWoken (s : WakeSt W) : Prop := ∀ fd, Woken (s.conns fd)

/-- While bytes wait, no event has both bits, and a write on an event leaves bytes that
the kernel does not take, or fails, or fills the socket, unless the socket is not
writable or another event with `EPOLLOUT` is to come. -/
def EdgeKept (c : WakeConn) : WakeLbl → Prop
  | .event a =>
    match c.events with
    | [] => True
    | m :: rest => 0 < c.conn.buff.slen → m.epollout = true →
      m.epollin = false ∧ (.eagain ∈ a.outs ∨ .err ∈ a.outs ∨ a.full = true ∨
        c.ready.epollout = false ∨ ∃ m' ∈ rest, m'.epollout = true)
  | _ => True

/-- The condition on a step of the process. -/
def EdgesKept (l : Nat × WakeLbl) (s : WakeSt W) : Prop := EdgeKept (s.conns l.1) l.2

/-- The invariant of a descriptor. -/
structure WakeInv (c : WakeConn) : Prop where
  ok : Woken c
  nonneg : 0 ≤ c.conn.buff.slen

/-! ## The read handlers -/

/-- What is kept of the bytes read leaves those to be written alone. -/
theorem keepRest_slen (buff : FdBuff) (tmp : Int) : (keepRest buff tmp).slen = buff.slen := by
  unfold keepRest
  split
  · rfl
  · rfl

/-- A pass of either handler leaves `slen` alone. -/
theorem framePass_slen (push : Push Q) (fd idx v : Int32) {buff : FdBuff} (tmp : Int) (q : Q)
    {n : Int} (hn : buff.slen = n) :
    (framePass push fd idx v buff tmp q).Leaves fun buff _ => buff.slen = n := by
  rcases framePass_cases push fd idx v buff tmp q with
    ⟨_, hpass⟩ | ⟨_, ⟨_, hpass⟩ | ⟨_, _, _, _, hpass⟩ | ⟨_, _, ⟨_, hpass⟩ | ⟨_, hpass⟩⟩⟩
  · rw [hpass]
    exact (keepRest_slen (buff.ask v) tmp).trans hn
  · rw [hpass]
    trivial
  · rw [hpass]
    exact hn
  · rw [hpass]
    exact hn
  · rw [hpass]
    exact hn

/-- So does a pass of a worker. -/
theorem svrPass_slen (proc : Proc W) (fd v : Int32) {buff : FdBuff} (tmp : Int) (w : W)
    {n : Int} (hn : buff.slen = n) :
    (svrPass proc fd v buff tmp w).Leaves fun buff _ => buff.slen = n := by
  unfold svrPass
  simp only
  split
  · split
    · exact hn
    · exact (keepRest_slen _ _).trans hn
  · exact (keepRest_slen _ _).trans hn

/-- So does a read, and it is not the one to send anything. -/
theorem handleRead_slen {max : Int} {mapped : Bool} {c c' : RecvConn} {outs rest : List RecvRes}
    {r : Int} (h : handleRead max mapped c outs = .ok (r, c', rest)) :
    c'.buff.slen = c.buff.slen := by
  have hmapped : ∀ {mem : Mem} {c : RecvConn}, readMapped max mem c outs = .ok (r, c', rest) →
      c'.buff.slen = c.buff.slen := by
    intro mem c h
    rcases readMapped_cases h with
      ⟨_, _, rfl, _⟩ | ⟨_, _, _, _, _, _, _, _, _, ⟨_, _, hbuff⟩ | ⟨_, _, hbuff⟩⟩
    · rfl
    · rw [hbuff]
    · rw [hbuff]
  rcases handleRead_cases h with
    ⟨_, ⟨_, _, _, rfl⟩ | ⟨_, hread⟩⟩ | ⟨_, hread⟩ | ⟨mem, _, hread⟩
  · rfl
  · exact (hmapped hread).trans rfl
  · rw [(readFailed_cases hread).1]
  · exact hmapped hread

/-- A read handler leaves `slen` alone. -/
def ReadKeeps (read : ReadFn W) : Prop :=
  ∀ {fd idx mapped recvs c w r c' w'}, read fd idx mapped recvs c w = some (r, c', w') →
    c'.buff.slen = c.buff.slen

/-- The master's read handler, with its readlist. -/
theorem cliRead_keeps (push : Push Q) (get : Mem → Int → Int32) (max : Int) :
    ReadKeeps (cliRead push get max) := by
  intro fd idx mapped recvs c w r c' w' h
  unfold cliRead at h
  rw [handleCli_eq] at h
  refine handlerOf_keeps (fun buff _ => buff.slen = c.buff.slen) ?_ ?_ h
  · intro v buff tmp q hn
    exact framePass_slen push fd idx v tmp q hn
  · intro r c₁ rest hread
    exact handleRead_slen hread

/-- The worker's. -/
theorem svrRead_keeps (proc : Proc W) (get : Mem → Int → Int32) (max : Int) :
    ReadKeeps (svrRead proc get max) := by
  intro fd idx mapped recvs c w r c' w' h
  refine handlerOf_keeps (fun buff _ => buff.slen = c.buff.slen) ?_ ?_ h
  · intro v buff tmp q hn
    exact svrPass_slen proc fd v tmp q hn
  · intro r c₁ rest hread
    exact handleRead_slen hread

/-! ## The sending functions -/

/-- A send that takes less than it was given was refused more. -/
theorem sendLoop_short {total : Int} : ∀ {outs : List SendRes} {sent ret taken : Int},
    sendLoop total sent outs = .ok ⟨ret, taken, []⟩ → ret ≠ -1 → ret < total → .eagain ∈ outs := by
  intro outs
  induction outs with
  | nil =>
    intro sent ret taken h _ hlt
    unfold sendLoop at h
    split at h
    · cases h
      omega
    · cases h
  | cons o outs ih =>
    intro sent ret taken h hret hlt
    unfold sendLoop at h
    split at h
    · cases h
    cases o with
    | sent n =>
      simp only at h
      split at h
      · cases h
      · exact List.mem_cons_of_mem _ (ih h hret hlt)
    | eintr => exact List.mem_cons_of_mem _ (ih h hret hlt)
    | eagain => exact List.mem_cons_self
    | err =>
      cases h
      exact absurd rfl hret

/-- What `do_fd_send` leaves waiting behind its own sends, and the interest mask then. -/
theorem sendRest_waits {max : Int} {alloc : Option Mem} {c c' : SendConn} {data : Mem}
    {len n r : Int} {isSend : Bool} {outs rest : List SendRes} (hnonneg : 0 ≤ c.buff.slen)
    (hsent : isSend = decide (0 < c.buff.slen))
    (h : sendRest max alloc c data len n isSend outs = .ok (r, c', rest)) :
    rest = outs ∧ 0 ≤ c'.buff.slen ∧ (0 < c'.buff.slen →
      0 < c.buff.slen ∧ c'.epollout = c.epollout ∨
        c.buff.slen = 0 ∧ n < len ∧ c'.epollout = true) := by
  rcases sendRest_cases h with ⟨hrest, ⟨_, rfl⟩ | ⟨_, _, sbf, rfl⟩ | ⟨hleft, _, _, hkept⟩⟩
  · rw [sendEvents_buff]
    refine ⟨hrest, hnonneg, fun hpos => ?_⟩
    left
    rw [sendEvents_epollout hpos, hsent, decide_eq_true hpos, if_pos rfl]
    exact ⟨hpos, rfl⟩
  · exact ⟨hrest, hnonneg, fun hpos => Or.inl ⟨hpos, rfl⟩⟩
  · rcases hkept with ⟨buff, hslen, ⟨_, rfl⟩ | ⟨_, rfl⟩⟩
    · refine ⟨hrest, Int.le_refl 0, fun hpos => absurd hpos (by simp [SendConn.close, emptyBuff])⟩
    · have hpos' : 0 < buff.slen := by omega
      rw [sendEvents_buff, sendEvents_epollout hpos']
      refine ⟨hrest, by simp only; omega, fun _ => ?_⟩
      by_cases hpos : 0 < c.buff.slen
      · left
        rw [hsent, decide_eq_true hpos, if_pos rfl]
        exact ⟨hpos, rfl⟩
      · right
        rw [hsent, decide_eq_false hpos]
        exact ⟨by omega, hleft, rfl⟩

/-- **What `do_fd_send` leaves waiting**: when nothing waited before, `send` has answered
with `EAGAIN` and `EPOLLOUT` is asked for. -/
theorem doFdSend_waits {max : Int} {alloc : Option Mem} {c c' : SendConn} {data : Mem}
    {len r : Int} {outs : List SendRes} (hnonneg : 0 ≤ c.buff.slen)
    (h : doFdSend max alloc c data len outs = .ok (r, c', [])) :
    0 ≤ c'.buff.slen ∧ (0 < c'.buff.slen →
      0 < c.buff.slen ∧ c'.epollout = c.epollout ∨
        c'.epollout = true ∧ .eagain ∈ outs) := by
  -- a closed connection has empty buffers
  have hclosed : ∀ d : SendConn, ¬ 0 < d.close.buff.slen := by
    intro d
    simp [SendConn.close, emptyBuff]
  rcases doFdSend_cases h with
    ⟨hpos, r₁, c₁, rest, hwrite, hcase⟩ | ⟨hzero, _, s, hsend, hcase⟩ | ⟨hneg, _⟩
  · rcases doFdWrite_waits hwrite with ⟨_, hout₁, hpos₁⟩
    rcases hcase with ⟨_, _, _, rfl⟩ | ⟨_, hkept⟩
    · exact ⟨Int.le_refl 0, fun hpos' => absurd hpos' (hclosed c₁)⟩
    · rcases sendRest_waits (by omega) (decide_eq_true hpos₁).symm hkept with ⟨_, hnonneg', hwaits⟩
      refine ⟨hnonneg', fun hpos' => ?_⟩
      left
      rcases hwaits hpos' with ⟨_, hout⟩ | ⟨hzero, _⟩
      · exact ⟨hpos, hout.trans hout₁⟩
      · omega
  · rcases s with ⟨ret, taken, rest⟩
    simp only at hcase
    have hidle : ¬ 0 < (c.take data taken).buff.slen := by
      simp only [SendConn.take]
      omega
    rcases hcase with ⟨_, _, _, rfl⟩ | ⟨hret, hkept⟩
    · exact ⟨Int.le_refl 0, fun hpos' => absurd hpos' (hclosed _)⟩
    · rcases sendRest_waits (c := c.take data taken) hnonneg (decide_eq_false hidle).symm hkept with
        ⟨hrest, hnonneg', hwaits⟩
      refine ⟨hnonneg', fun hpos' => ?_⟩
      right
      rcases hwaits hpos' with ⟨hno, _⟩ | ⟨_, hshort, hout⟩
      · exact absurd hno hidle
      · rw [← hrest] at hsend
        exact ⟨hout, sendLoop_short hsend hret hshort⟩
  · omega

/-! ## The steps keep it -/

/-- A connection of which nothing waits. -/
theorem wakeInv_idle {c : WakeConn} (htried : c.swallowed = false) (hzero : c.conn.buff.slen = 0) :
    WakeInv c := by
  constructor
  · constructor
    · intro _ hpos
      omega
    · exact htried
  · omega

/-- Another event does no harm. -/
theorem WakeInv.notify {c : WakeConn} (hc : WakeInv c) : WakeInv c.notify := by
  unfold WakeConn.notify
  split
  · exact hc
  · constructor
    · constructor
      · intro hreg hpos
        rcases hc.ok.comes hreg hpos with ⟨hout, hcomes⟩
        refine ⟨hout, fun hready => ?_⟩
        rcases hcomes hready with ⟨m, hm, hmout⟩
        exact ⟨m, List.mem_append_left _ hm, hmout⟩
      · exact hc.ok.tried
    · exact hc.nonneg

/-- The event of a change tells of `EPOLLOUT` when that is ready and asked for. -/
theorem notify_tells {c : WakeConn} (hreg : c.conn.registered = true)
    (hout : c.conn.epollout = true) (hready : c.ready.epollout = true) :
    ∃ m ∈ c.notify.events, m.epollout = true := by
  have hmask : c.mask.epollout = true := by
    simp [WakeConn.mask, hout, hready]
  have hno : ¬ (c.conn.registered = false ∨ c.mask = ⟨false, false, false⟩) := by
    rintro (hfalse | hnone)
    · cases hreg.symm.trans hfalse
    · rw [hnone] at hmask
      cases hmask
  unfold WakeConn.notify
  rw [if_neg hno]
  exact ⟨c.mask, List.mem_append_right _ (List.mem_singleton_self _), hmask⟩

/-- A change of readiness. -/
theorem change_keeps {c : WakeConn} (hc : WakeInv c) (bits : Mask) :
    WakeInv ({ c with ready := c.ready.or bits } : WakeConn).notify := by
  have hsame : ∀ d : WakeConn, d.notify.conn = d.conn ∧ d.notify.ready = d.ready ∧
      d.notify.swallowed = d.swallowed := by
    intro d
    unfold WakeConn.notify
    split
    · exact ⟨rfl, rfl, rfl⟩
    · exact ⟨rfl, rfl, rfl⟩
  rcases hsame { c with ready := c.ready.or bits } with ⟨hconn, hready, hswallowed⟩
  constructor
  · constructor
    · intro hreg hpos
      rw [hconn] at hreg hpos ⊢
      rcases hc.ok.comes hreg hpos with ⟨hout, _⟩
      refine ⟨hout, fun hnow => ?_⟩
      rw [hready] at hnow
      exact notify_tells hreg hout hnow
    · rw [hswallowed]
      exact hc.ok.tried
  · rw [hconn]
    exact hc.nonneg

/-- `do_fd_send` keeps the invariant. -/
theorem wakeSend_keeps {max : Int} {alloc : Option Mem} {data : Mem} {len : Int}
    {outs : List SendRes} {full : Bool} {c c' : WakeConn} (hc : WakeInv c)
    (hreg : c.conn.registered = true) (h : wakeSend max alloc data len outs full c = some c') :
    WakeInv c' := by
  unfold wakeSend at h
  split at h
  swap
  · cases h
  next r conn hsend =>
  rcases doFdSend_waits hc.nonneg hsend with ⟨hnonneg, hwaits⟩
  have hsent : WakeInv (c.sent conn outs full) := by
    unfold WakeConn.sent
    split
    · constructor
      · constructor
        · intro _ hpos
          rcases hwaits hpos with ⟨hbefore, hsame⟩ | ⟨hout, hagain⟩
          · -- what waited before has its event
            rcases hc.ok.comes hreg hbefore with ⟨hout, hcomes⟩
            refine ⟨hsame.trans hout, fun hready => hcomes ?_⟩
            exact (Bool.and_eq_true_iff.mp hready).1
          · -- `EAGAIN` says that the socket is not writable, so an event will come
            refine ⟨hout, fun hready => ?_⟩
            have hno := of_decide_eq_true (Bool.and_eq_true_iff.mp hready).2
            exact absurd hagain hno.1
        · exact hc.ok.tried
      · exact hnonneg
    · next hclosed =>
      constructor
      · constructor
        · intro hopen
          exact absurd hopen hclosed
        · exact hc.ok.tried
      · exact hnonneg
  simp only at h
  split at h
  · cases h
    exact hsent.notify
  · cases h
    exact hsent

/-- The `EPOLLIN` branch keeps it, unless it has swallowed an event. -/
theorem wakeRead_keeps {read : ReadFn W} (hread : ReadKeeps read) {fd : Int32} {mapped : Bool}
    {recvs : List RecvRes} {unread : Bool} {c c' : WakeConn} {w w' : W} (hc : WakeInv c)
    (h : wakeRead read fd mapped recvs unread c w = some (c', w')) : WakeInv c' := by
  unfold wakeRead at h
  rcases Option.map_eq_some_iff.mp h with ⟨⟨r, rc, w₁⟩, hrc, heq⟩
  have hslen : rc.buff.slen = c.conn.buff.slen := hread hrc
  simp only at heq
  split at heq
  · cases heq
    exact wakeInv_idle hc.ok.tried rfl
  · cases heq
    constructor
    · constructor
      · intro hreg hpos
        exact hc.ok.comes hreg (hslen ▸ hpos)
      · exact hc.ok.tried
    · exact hslen ▸ hc.nonneg

/-- A read is no event that is swallowed. -/
theorem wakeRead_swallowed {read : ReadFn W} {fd : Int32} {mapped : Bool}
    {recvs : List RecvRes} {unread : Bool} {c c' : WakeConn} {w w' : W}
    (h : wakeRead read fd mapped recvs unread c w = some (c', w')) :
    c'.swallowed = c.swallowed := by
  unfold wakeRead at h
  rcases Option.map_eq_some_iff.mp h with ⟨⟨r, rc, w₁⟩, _, heq⟩
  simp only at heq
  split at heq
  · cases heq
    rfl
  · cases heq
    rfl

/-- The `EPOLLOUT` branch on what waits: it leaves the invariant, or the next write does
not come. -/
theorem wakeWrite_cases {outs : List SendRes} {full : Bool} {c c' : WakeConn}
    (hreg : c.conn.registered = true) (hout : c.conn.epollout = true)
    (htried : c.swallowed = false) (hpos : 0 < c.conn.buff.slen)
    (h : wakeWrite outs full c = some c') :
    let kept := .eagain ∈ outs ∨ .err ∈ outs ∨ full = true ∨ c.ready.epollout = false ∨
      ∃ m ∈ c.events, m.epollout = true
    kept ∧ WakeInv c' ∨ ¬ kept ∧ ¬ Woken c' := by
  intro kept
  unfold wakeWrite epollOut at h
  rw [if_pos hpos] at h
  cases hwrite : doFdWrite c.conn outs with
  | error e =>
    rw [hwrite] at h
    cases h
  | ok out =>
  rcases out with ⟨r, conn, _ | ⟨o, rest⟩⟩
  swap
  · rw [hwrite] at h
    cases h
  rw [hwrite] at h
  rcases doFdWrite_waits hwrite with ⟨hreg', hout', hpos'⟩
  rcases doFdWrite_accepted hpos hwrite rfl with ⟨hfail, herr⟩ | ⟨hok, hno, _⟩
  · -- the connection is closed
    left
    simp only [hfail, if_true, SendConn.close, emptyBuff] at h
    refine ⟨Or.inr (Or.inl herr), ?_⟩
    cases h
    apply WakeInv.notify
    unfold WakeConn.sent
    rw [if_neg (by simp)]
    exact wakeInv_idle htried rfl
  · -- something still waits, whatever `send` has taken
    have hopen : conn.registered = true := hreg'.trans hreg
    simp only [if_neg hok, if_neg (show ¬ conn.buff.slen = 0 by omega)] at h
    unfold WakeConn.sent at h
    rw [if_pos hopen] at h
    cases h
    by_cases hkept : kept
    · left
      refine ⟨hkept, ⟨fun _ _ => ⟨hout'.trans hout, fun hready => ?_⟩, htried⟩,
        Int.le_of_lt hpos'⟩
      rcases Bool.and_eq_true_iff.mp hready with ⟨hbefore, hboth⟩
      rcases of_decide_eq_true hboth with ⟨hagain, hfull⟩
      rcases hkept with hyes | hyes | hyes | hyes | hcomes
      · exact absurd hyes hagain
      · exact absurd hyes hno
      · cases hfull.symm.trans hyes
      · cases hbefore.symm.trans hyes
      · exact hcomes
    · right
      refine ⟨hkept, fun hwoken => hkept ?_⟩
      by_cases hready : (c.ready.epollout && decide (.eagain ∉ outs ∧ full = false)) = true
      · exact Or.inr (Or.inr (Or.inr (Or.inr ((hwoken.comes hopen hpos').2 hready))))
      · by_cases hagain : .eagain ∈ outs
        · exact Or.inl hagain
        · cases full with
          | true => exact Or.inr (Or.inr (Or.inl rfl))
          | false =>
            right; right; right; left
            simpa [hagain] using hready

/-- The `EPOLLOUT` branch when nothing waits calls no `send`. -/
theorem wakeWrite_idle {outs : List SendRes} {full : Bool} {c c' : WakeConn}
    (htried : c.swallowed = false) (hzero : c.conn.buff.slen = 0)
    (h : wakeWrite outs full c = some c') : WakeInv c' := by
  unfold wakeWrite epollOut at h
  simp only [hzero, Int.lt_irrefl, if_false, if_true] at h
  cases outs with
  | cons o outs => cases h
  | nil =>
    simp only [hzero, if_true] at h
    cases h
    apply WakeInv.notify
    unfold WakeConn.sent
    split
    · exact wakeInv_idle htried hzero
    · exact wakeInv_idle htried hzero

/-- The loop goes by an event that did not tell what waits. -/
theorem WakeInv.pass {c : WakeConn} (hc : WakeInv c) {m : Mask} {rest : List Mask}
    (hevents : c.events = m :: rest) (hm : 0 < c.conn.buff.slen → m.epollout = false) :
    WakeInv { c with events := rest } := by
  constructor
  · constructor
    · intro hreg hpos
      rcases hc.ok.comes hreg hpos with ⟨hout, hcomes⟩
      refine ⟨hout, fun hready => ?_⟩
      rcases hcomes hready with ⟨m', hm', hmout⟩
      rw [hevents] at hm'
      rcases List.mem_cons.mp hm' with heq | hrest
      · rw [heq, hm hpos] at hmout
        cases hmout
      · exact ⟨m', hrest, hmout⟩
    · exact hc.ok.tried
  · exact hc.nonneg

/-- **An event is handled**, on either side of the condition. -/
theorem wakeEvent_cases {read : ReadFn W} (hread : ReadKeeps read) {fd : Int32} {m : Mask}
    {rest : List Mask} {a : Answers} {c c' : WakeConn} {w w' : W} (hc : WakeInv c)
    (hreg : c.conn.registered = true) (hevents : c.events = m :: rest)
    (h : wakeEvent read fd m a { c with events := rest } w = some (c', w')) :
    EdgeKept c (.event a) ∧ WakeInv c' ∨ ¬ EdgeKept c (.event a) ∧ ¬ Woken c' := by
  unfold EdgeKept
  simp only [hevents]
  unfold wakeEvent at h
  by_cases hin : m.epollin = true
  · rw [if_pos hin] at h
    by_cases hmissed : m.epollout = true ∧ 0 < c.conn.buff.slen
    · -- the event is swallowed
      right
      constructor
      · intro hkept
        cases hin.symm.trans (hkept hmissed.2 hmissed.1).1
      · intro hwoken
        have htried := hwoken.tried
        rw [wakeRead_swallowed h] at htried
        simp [hmissed] at htried
    · -- only the read was asked for
      left
      have hfalse : (m.epollout && decide (0 < c.conn.buff.slen)) = false := by
        simpa using hmissed
      simp only [hfalse, Bool.or_false] at h
      constructor
      · exact fun hpos hout => absurd ⟨hout, hpos⟩ hmissed
      · refine wakeRead_keeps hread (hc.pass hevents fun hpos => ?_) h
        simpa [hpos] using hmissed
  have hnoin : m.epollin = false := by simpa using hin
  rw [if_neg hin] at h
  by_cases hout : m.epollout = true
  · rw [if_pos hout] at h
    rcases Option.map_eq_some_iff.mp h with ⟨c₁, hwrite, heq⟩
    cases heq
    by_cases hpos : 0 < c.conn.buff.slen
    · rcases hc.ok.comes hreg hpos with ⟨hasked, _⟩
      rcases wakeWrite_cases (c := { c with events := rest }) hreg hasked hc.ok.tried hpos
        hwrite with ⟨hkept, hinv⟩ | ⟨hno, hbad⟩
      · exact Or.inl ⟨fun _ _ => ⟨hnoin, hkept⟩, hinv⟩
      · exact Or.inr ⟨fun hall => hno (hall hpos hout).2, hbad⟩
    · -- nothing waits
      left
      refine ⟨fun hpos' => absurd hpos' hpos, ?_⟩
      have hzero : c.conn.buff.slen = 0 := by
        have hnonneg := hc.nonneg
        omega
      exact wakeWrite_idle (c := { c with events := rest }) hc.ok.tried hzero hwrite
  · rw [if_neg hout] at h
    cases h
    left
    refine ⟨fun _ hyes => absurd hyes hout, hc.pass hevents fun _ => ?_⟩
    simpa using hout

/-- **One step of a descriptor**, on either side of the condition. -/
theorem connStep_cases {max : Int} {read : ReadFn W} (hread : ReadKeeps read) {fd : Int32}
    {l : WakeLbl} {c c' : WakeConn} {w w' : W} (hc : WakeInv c)
    (h : connStep max read fd l c w = some (c', w')) :
    EdgeKept c l ∧ WakeInv c' ∨ ¬ EdgeKept c l ∧ ¬ Woken c' := by
  unfold connStep at h
  by_cases hreg : c.conn.registered = true
  · rw [if_pos hreg] at h
    cases l with
    | register idx ready => cases h
    | change bits =>
      left
      cases h
      exact ⟨trivial, change_keeps hc bits⟩
    | send alloc data len outs full =>
      left
      rcases Option.map_eq_some_iff.mp h with ⟨c₁, hsend, heq⟩
      cases heq
      exact ⟨trivial, wakeSend_keeps hc hreg hsend⟩
    | event a =>
      simp only at h
      split at h
      · cases h
      · -- the only step where the edge can be lost
        next hevents => exact wakeEvent_cases hread hc hreg hevents h
    | readlist a =>
      left
      simp only at h
      split at h
      · exact ⟨trivial, wakeRead_keeps hread hc h⟩
      · cases h
    | close =>
      left
      cases h
      exact ⟨trivial, wakeInv_idle hc.ok.tried rfl⟩
  · rw [if_neg hreg] at h
    cases l with
    | register idx ready =>
      left
      cases h
      refine ⟨trivial, ?_⟩
      apply WakeInv.notify
      exact wakeInv_idle hc.ok.tried rfl
    -- a number that is not registered takes no other step
    | change | send | event | readlist | close => cases h

/-- One step of a process, on either side of the condition. -/
theorem wakeStep_cases {max : Int} {read : ReadFn W} (hread : ReadKeeps read)
    {l : Nat × WakeLbl} {s t : WakeSt W} (hs : ∀ fd, WakeInv (s.conns fd))
    (h : wakeStep max read l s = some t) :
    EdgesKept l s ∧ (∀ fd, WakeInv (t.conns fd)) ∨ ¬ EdgesKept l s ∧ ¬ AllWoken t := by
  unfold wakeStep at h
  rcases Option.map_eq_some_iff.mp h with ⟨⟨c, w⟩, hstep, heq⟩
  cases heq
  rcases connStep_cases hread (hs l.1) hstep with ⟨hkept, hinv⟩ | ⟨hno, hbad⟩
  · left
    refine ⟨hkept, fun fd => ?_⟩
    by_cases hfd : fd = l.1
    · rw [hfd]
      simpa using hinv
    · simpa [hfd] using hs fd
  · right
    refine ⟨hno, fun hall => hbad ?_⟩
    simpa using hall l.1

/-- In every run of a process with such a read handler. -/
theorem wakes_iff {max : Int} {read : ReadFn W} (hread : ReadKeeps read) (w : W)
    (ls : List (Nat × WakeLbl)) :
    Throughout (wakeStep max read) AllWoken ls (wakeStart w) ↔
      Along (wakeStep max read) EdgesKept ls (wakeStart w) := by
  apply throughout_iff_along (fun s => ∀ fd, WakeInv (s.conns fd))
  · intro s hs fd
    exact (hs fd).ok
  · intro l s t hs h
    exact wakeStep_cases hread hs h
  · intro fd
    exact wakeInv_idle rfl rfl

/-- **No wake-up is lost, in either process,** in every state of a run, exactly when no
event of a connection of which bytes wait has both bits, and no write on one sends all
that waits and leaves the socket writable with no other such event to come. -/
theorem no_lost_wakeup_iff (push : Push Q) (proc : Proc W) (get : Mem → Int → Int32) (max : Int)
    (q : Q) (w : W) (ls : List (Nat × WakeLbl)) :
    (Throughout (wakeStep max (cliRead push get max)) AllWoken ls (wakeStart q) ↔
        Along (wakeStep max (cliRead push get max)) EdgesKept ls (wakeStart q)) ∧
      (Throughout (wakeStep max (svrRead proc get max)) AllWoken ls (wakeStart w) ↔
        Along (wakeStep max (svrRead proc get max)) EdgesKept ls (wakeStart w)) := by
  constructor
  · exact wakes_iff (cliRead_keeps push get max) q ls
  · exact wakes_iff (svrRead_keeps proc get max) w ls

/-! ## Stalls -/

/-- Bytes wait, the socket is writable, and no event is to come. -/
def Stalled (c : WakeConn) : Prop :=
  c.conn.registered = true ∧ 0 < c.conn.buff.slen ∧ c.ready.epollout = true ∧ c.events = []

instance (c : WakeConn) : Decidable (Stalled c) :=
  inferInstanceAs (Decidable (_ ∧ _ ∧ _ ∧ _))

/-- Connection 7 is registered, and the kernel takes nothing of two messages of four
bytes: the first is given up behind the `malloc`, the second waits. -/
def fullSocket : List (Nat × WakeLbl) :=
  [(7, .register 0 ⟨false, true, false⟩),
    (7, .send (some fun _ => 0) (fun _ => 0) 4 [.eagain] false),
    (7, .send (some fun _ => 0) (fun _ => 0) 4 [.eagain] false)]

/-- A message comes, and the socket becomes writable: one event. -/
def bothBits : List (Nat × WakeLbl) :=
  [(7, .change ⟨true, true, false⟩),
    (7, .event ⟨true, [.data [1, 2, 3, 4, 5], .eagain], false, [], false⟩)]

/-- The socket becomes writable, and takes all four bytes. -/
def wholeWrite : List (Nat × WakeLbl) :=
  [(7, .change ⟨false, true, false⟩), (7, .event ⟨true, [], false, [.sent 4], false⟩)]

/-- A connection that stalls is not woken. -/
theorem stalled_not_woken {W : Type} {o : Option (WakeSt W)} (hsome : o.isSome = true)
    (hall : ∀ s ∈ o, Stalled (s.conns 7)) : ∃ s, o = some s ∧ ¬ AllWoken s := by
  rcases Option.isSome_iff_exists.mp hsome with ⟨s, hs⟩
  refine ⟨s, hs, fun hwoken => ?_⟩
  rcases hall s hs with ⟨hreg, hpos, hready, hnone⟩
  rcases ((hwoken 7).comes hreg hpos).2 hready with ⟨m, hm, _⟩
  rw [hnone] at hm
  cases hm

/-- The client that talks while it is written to is written to no more, and so is the
server that took everything. -/
theorem fullSocket_not_woken :
    (∃ s, exec (wakeStep 64 (cliRead mqPush (fun _ _ => 5) 64)) (fullSocket ++ bothBits)
        (wakeStart (mqInit 128)) = some s ∧ ¬ AllWoken s) ∧
      ∃ s, exec (wakeStep 64 (svrRead (fun n _ _ _ => n + 1) (fun _ _ => 5) 64))
        (fullSocket ++ wholeWrite) (wakeStart 0) = some s ∧ ¬ AllWoken s := by
  constructor
  · exact stalled_not_woken (by decide +kernel) (by decide +kernel)
  · exact stalled_not_woken (by decide +kernel) (by decide +kernel)

end SServer.Net
