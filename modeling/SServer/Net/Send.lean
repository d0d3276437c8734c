import SServer.Lib.Run
import SServer.Net.Buff

/-!
# SServer.Net.Send — `do_fd_send`, `do_fd_write` and the byte stream they keep

A client's replies are sent at once where the kernel takes them; what it does
not take is kept in `sbf` and sent when the socket becomes writable. What
`send` answers is an argument of each function: the list of the answers still
to come, handed from call to call, so that every partial send, `EINTR`,
`EAGAIN` and error is one of the lists.

The model follows the source in two places that are easy to read over. The
check of the first allocation in `do_fd_send` is `if (buff->sbf)`, so it is the
successful `malloc` that returns `-1`. And `do_fd_write` takes what was sent
off `slen` only when something is left.

* `doFdWrite_cases`, `doFdSend_cases`, `sendRest_cases`: what each function can do, with the
  guards: what follows in the other modules is shown from these.
* `doFdSend_closes_iff`: when `do_fd_send` closes the connection.

Where `do_fd_write` is called with `sbf` null, `send` answers `EFAULT`, which is a failure like
any other. `malloc` and `realloc` may return null, and what a fresh block holds is arbitrary.
`MSG_NOSIGNAL` and the delays of the network play no part: a byte that the kernel has taken is
on the wire.
-/

namespace SServer.Net

open SServer.Lib

/-! ## The kernel's side -/

/-- An answer of `send`. -/
inductive SendRes where
  | sent (n : Nat)
  | eintr
  -- `EAGAIN` or `EWOULDBLOCK`
  | eagain
  -- any other `errno`
  | err
deriving DecidableEq

/-- What a call of `safe_tcp_send_n` returned, how many bytes the kernel took
meanwhile, and the answers left over. -/
structure Sent where
  ret : Int
  taken : Int
  rest : List SendRes

/-- The loop of `safe_tcp_send_n`, with `sent` bytes behind it. -/
def sendLoop (total : Int) : Int → List SendRes → Except Fault Sent
  | sent, outs =>
    if total ≤ sent then .ok ⟨sent, sent, outs⟩
    else
      match outs with
      | [] => .error .noAnswer
      | .sent n :: outs =>
        if total < sent + n then .error .noAnswer else sendLoop total (sent + n) outs
      | .eintr :: outs => sendLoop total sent outs
      | .eagain :: outs => .ok ⟨sent, sent, outs⟩
      | .err :: outs => .ok ⟨-1, sent, outs⟩

/-- `safe_tcp_send_n`. -/
def safeTcpSendN (total : Int) (outs : List SendRes) : Except Fault Sent :=
  if total ≤ 0 then .error .assertFailed else sendLoop total 0 outs

/-! ## The functions -/

/-- A connection as the sending functions see it: its buffers, whether its slot
is registered, whether `EPOLLOUT` is in its interest mask, and the bytes the
kernel has taken from it so far. -/
structure SendConn where
  buff : FdBuff
  registered : Bool
  epollout : Bool
  wire : List UInt8

/-- What a call returned, what it left, and the answers left over. -/
abbrev SendOut := Except Fault (Int × SendConn × List SendRes)

/-- The part of `do_fd_close` that touches the connection itself. -/
def SendConn.close (c : SendConn) : SendConn :=
  { c with buff := emptyBuff, registered := false }

/-- The kernel takes the first `n` bytes behind a pointer. -/
def SendConn.take (c : SendConn) (buf : Mem) (n : Int) : SendConn :=
  { c with wire := c.wire ++ bytes buf n }

/-- `do_fd_write`. -/
def doFdWrite (c : SendConn) (outs : List SendRes) : SendOut :=
  match c.buff.sbf with
  | none =>
    match safeTcpSendN c.buff.slen outs with
    | .error e => .error e
    | .ok s =>
      -- `send` from a null pointer answers `EFAULT`, one of the errors
      if s.ret = -1 ∧ s.taken = 0 then .ok (-1, c, s.rest) else .error .noAnswer
  | some sbf =>
    match safeTcpSendN c.buff.slen outs with
    | .error e => .error e
    | .ok s =>
      let c := c.take sbf.mem s.taken
      if s.ret = 0 then .ok (0, c, s.rest)
      else if 0 < s.ret then
        if s.ret < c.buff.slen then
          -- `memmove` of what is left to the front
          let mem := memcpy sbf.mem 0 (sbf.mem.ptr s.ret) (c.buff.slen - s.ret)
          let buff := { c.buff with
            sbf := some { sbf with mem := mem }
            slen := c.buff.slen - s.ret }
          .ok (s.ret, { c with buff := buff }, s.rest)
        else
          -- all of it is taken, and `slen` says that it still waits
          .ok (s.ret, c, s.rest)
      else .ok (s.ret, c, s.rest)

/-- The end of `do_fd_send`: the interest mask. -/
def sendEvents (c : SendConn) (isSend : Bool) : SendConn :=
  if 0 < c.buff.slen ∧ isSend = false then { c with epollout := true }
  else if c.buff.slen = 0 then { c with epollout := false }
  else c

/-- A change of the interest mask leaves the buffers alone. -/
@[simp] theorem sendEvents_buff (c : SendConn) (isSend : Bool) :
    (sendEvents c isSend).buff = c.buff := by
  unfold sendEvents
  split
  · rfl
  · split
    · rfl
    · rfl

/-- Nor does it register the entry, or take it out. -/
@[simp] theorem sendEvents_registered (c : SendConn) (isSend : Bool) :
    (sendEvents c isSend).registered = c.registered := by
  unfold sendEvents
  split
  · rfl
  · split
    · rfl
    · rfl

/-- While something waits, `EPOLLOUT` is asked for by the first call. -/
theorem sendEvents_epollout {c : SendConn} (hpos : 0 < c.buff.slen) (isSend : Bool) :
    (sendEvents c isSend).epollout = if isSend then c.epollout else true := by
  unfold sendEvents
  cases isSend with
  | true =>
    rw [if_neg (by simp), if_neg (by omega)]
    rfl
  | false =>
    rw [if_pos ⟨hpos, rfl⟩]
    rfl

/-- `do_fd_send` from the `memcpy` into a send buffer with room. -/
def sendKeep (max : Int) (c : SendConn) (sbf : HeapBlk) (data : Mem) (len sendLen : Int)
    (isSend : Bool) (outs : List SendRes) : SendOut :=
  let leftLen := len - sendLen
  let mem := memcpy sbf.mem c.buff.slen (data.ptr sendLen) leftLen
  let c := { c with buff := { c.buff with
    sbf := some { sbf with mem := mem }
    slen := c.buff.slen + leftLen } }
  if max ≠ 0 ∧ max < c.buff.slen then .ok (-1, c.close, outs)
  else .ok (0, sendEvents c isSend, outs)

/-- `do_fd_send` from `if (len > send_len)`: make room for what is left and
keep it. `alloc` is what `malloc` or `realloc` gives, the bytes of a fresh
block or `NULL`. -/
def sendRest (max : Int) (alloc : Option Mem) (c : SendConn) (data : Mem) (len sendLen : Int)
    (isSend : Bool) (outs : List SendRes) : SendOut :=
  if sendLen < len then
    let leftLen := len - sendLen
    match c.buff.sbf with
    | none =>
      match alloc with
      | some fresh =>
        -- `if (buff->sbf)`: the block that was asked for is taken for an error
        .ok (-1, { c with buff := { c.buff with sbf := some ⟨leftLen, fresh⟩ } }, outs)
      | none => .error .nullAccess
    | some sbf =>
      if c.buff.sbfSize < c.buff.slen + leftLen then
        match alloc with
        | none => .ok (-1, { c with buff := { c.buff with sbf := none } }, outs)
        | some fresh =>
          let grown : HeapBlk :=
            { size := c.buff.slen + leftLen
              mem := fun i => if i < sbf.size then sbf.mem i else fresh i }
          let c := { c with buff := { c.buff with
            sbf := some grown
            sbfSize := leftLen + c.buff.slen } }
          sendKeep max c grown data len sendLen isSend outs
      else sendKeep max c sbf data len sendLen isSend outs
  else .ok (0, sendEvents c isSend, outs)

/-- `do_fd_send` from `int send_len = 0`: send directly when nothing waits. -/
def sendDirect (max : Int) (alloc : Option Mem) (c : SendConn) (data : Mem) (len : Int)
    (isSend : Bool) (outs : List SendRes) : SendOut :=
  if c.buff.slen = 0 then
    match safeTcpSendN len outs with
    | .error e => .error e
    | .ok s =>
      let c := c.take data s.taken
      if s.ret = -1 then .ok (-1, c.close, s.rest)
      else sendRest max alloc c data len s.ret isSend s.rest
  else sendRest max alloc c data len 0 isSend outs

/-- `do_fd_send`, with `setting.max_buf_len` as `max`. -/
def doFdSend (max : Int) (alloc : Option Mem) (c : SendConn) (data : Mem) (len : Int)
    (outs : List SendRes) : SendOut :=
  if 0 < c.buff.slen then
    match doFdWrite c outs with
    | .error e => .error e
    | .ok (r, c, outs) =>
      -- from here on `is_send` is set
      if r = -1 then .ok (-1, c.close, outs) else sendDirect max alloc c data len true outs
  else sendDirect max alloc c data len false outs

/-- The `EPOLLOUT` branch of `master_dispatch`. -/
def epollOut (c : SendConn) (outs : List SendRes) : Except Fault (SendConn × List SendRes) :=
  let drained (c : SendConn) : SendConn :=
    if c.buff.slen = 0 then { c with epollout := false } else c
  if 0 < c.buff.slen then
    match doFdWrite c outs with
    | .error e => .error e
    | .ok (r, c, outs) => .ok (drained (if r = -1 then c.close else c), outs)
  else .ok (drained c, outs)

/-! ## The ways through the functions -/

/-- **What `do_fd_write` does**: the kernel takes from the front of `sbf`, and what it has
left is moved there only when it has taken something and left something. Where there is no
`sbf` it fails. -/
theorem doFdWrite_cases {c c' : SendConn} {r : Int} {outs rest : List SendRes}
    (h : doFdWrite c outs = .ok (r, c', rest)) :
    ∃ s, sendLoop c.buff.slen 0 outs = .ok s ∧ r = s.ret ∧ rest = s.rest ∧ 0 < c.buff.slen ∧
      (c.buff.sbf = none ∧ s.ret = -1 ∧ c' = c ∨
        ∃ sbf, c.buff.sbf = some sbf ∧
          (0 < s.ret ∧ s.ret < c.buff.slen ∧ c' = { c.take sbf.mem s.taken with buff :=
              { c.buff with
                sbf := some { sbf with
                  mem := memcpy sbf.mem 0 (sbf.mem.ptr s.ret) (c.buff.slen - s.ret) }
                slen := c.buff.slen - s.ret } } ∨
            ¬ (0 < s.ret ∧ s.ret < c.buff.slen) ∧ c' = c.take sbf.mem s.taken)) := by
  -- the assertion has been met
  have hpos : 0 < c.buff.slen := by
    by_contra hno
    have hassert : safeTcpSendN c.buff.slen outs = .error .assertFailed := if_pos (by omega)
    unfold doFdWrite at h
    rw [hassert] at h
    cases hsbf : c.buff.sbf with
    | none =>
      rw [hsbf] at h
      cases h
    | some sbf =>
      rw [hsbf] at h
      cases h
  have hcall : safeTcpSendN c.buff.slen outs = sendLoop c.buff.slen 0 outs := if_neg (by omega)
  unfold doFdWrite at h
  rw [hcall] at h
  cases hsend : sendLoop c.buff.slen 0 outs with
  | error e =>
    rw [hsend] at h
    cases hsbf : c.buff.sbf with
    | none =>
      rw [hsbf] at h
      cases h
    | some sbf =>
      rw [hsbf] at h
      cases h
  | ok s =>
  rw [hsend] at h
  refine ⟨s, rfl, ?_⟩
  cases hsbf : c.buff.sbf with
  | none =>
    rw [hsbf] at h
    simp only at h
    -- without `sbf` only a failure is an answer
    split at h
    · next hfail =>
      cases h
      exact ⟨hfail.1.symm, rfl, hpos, Or.inl ⟨rfl, hfail.1, rfl⟩⟩
    · cases h
  | some sbf =>
  rw [hsbf] at h
  simp only at h
  by_cases hnone : s.ret = 0
  · rw [if_pos hnone] at h
    cases h
    exact ⟨hnone.symm, rfl, hpos, Or.inr ⟨sbf, rfl, Or.inr ⟨by omega, rfl⟩⟩⟩
  rw [if_neg hnone] at h
  by_cases hsome : 0 < s.ret
  · rw [if_pos hsome] at h
    -- the rest is moved to the front only when there is one
    by_cases hless : s.ret < (c.take sbf.mem s.taken).buff.slen
    · rw [if_pos hless] at h
      cases h
      exact ⟨rfl, rfl, hpos, Or.inr ⟨sbf, rfl, Or.inl ⟨hsome, hless, rfl⟩⟩⟩
    · rw [if_neg hless] at h
      cases h
      exact ⟨rfl, rfl, hpos, Or.inr ⟨sbf, rfl, Or.inr ⟨fun hcut => hless hcut.2, rfl⟩⟩⟩
  · rw [if_neg hsome] at h
    cases h
    exact ⟨rfl, rfl, hpos, Or.inr ⟨sbf, rfl, Or.inr ⟨fun hcut => hsome hcut.1, rfl⟩⟩⟩

/-- Behind `do_fd_write` something still waits: `slen` is not set to zero. -/
theorem doFdWrite_waits {c c' : SendConn} {r : Int} {outs rest : List SendRes}
    (h : doFdWrite c outs = .ok (r, c', rest)) :
    c'.registered = c.registered ∧ c'.epollout = c.epollout ∧ 0 < c'.buff.slen := by
  rcases doFdWrite_cases h with
    ⟨s, _, _, _, hpos, ⟨_, _, rfl⟩ | ⟨sbf, _, ⟨_, hless, rfl⟩ | ⟨_, rfl⟩⟩⟩
  · exact ⟨rfl, rfl, hpos⟩
  · exact ⟨rfl, rfl, by simp only; omega⟩
  · exact ⟨rfl, rfl, hpos⟩

/-- **How `do_fd_send` keeps what is left**, with no call of `send`: there is nothing left,
or no room was made and only `sbf` has changed, or what is left goes behind what waits, and
the connection is closed when that is more than `max_buf_len`. -/
theorem sendRest_cases {max : Int} {alloc : Option Mem} {c c' : SendConn} {data : Mem}
    {len n r : Int} {isSend : Bool} {outs rest : List SendRes}
    (h : sendRest max alloc c data len n isSend outs = .ok (r, c', rest)) :
    rest = outs ∧ (len ≤ n ∧ c' = sendEvents c isSend ∨
      n < len ∧
        (c.buff.sbf.isSome = false ∨
            c.buff.sbfSize < c.buff.slen + (len - n) ∧ alloc.isSome = false) ∧
          (∃ sbf, c' = { c with buff := { c.buff with sbf := sbf } }) ∨
      n < len ∧ c.buff.sbf.isSome = true ∧
        (c.buff.sbfSize < c.buff.slen + (len - n) → alloc.isSome = true) ∧
          ∃ buff, buff.slen = c.buff.slen + (len - n) ∧
            ((max ≠ 0 ∧ max < buff.slen) ∧ c' = SendConn.close { c with buff := buff } ∨
              ¬ (max ≠ 0 ∧ max < buff.slen) ∧ c' = sendEvents { c with buff := buff } isSend)) := by
  -- what follows when there is room
  have hkeep : ∀ {d : SendConn} {sbf : HeapBlk},
      sendKeep max d sbf data len n isSend outs = .ok (r, c', rest) →
      rest = outs ∧ ∃ buff, buff.slen = d.buff.slen + (len - n) ∧
        ((max ≠ 0 ∧ max < buff.slen) ∧ c' = SendConn.close { d with buff := buff } ∨
          ¬ (max ≠ 0 ∧ max < buff.slen) ∧ c' = sendEvents { d with buff := buff } isSend) := by
    intro d sbf h
    unfold sendKeep at h
    simp only at h
    split at h
    · next hover =>
      cases h
      exact ⟨rfl, _, rfl, Or.inl ⟨hover, rfl⟩⟩
    · next hfits =>
      cases h
      exact ⟨rfl, _, rfl, Or.inr ⟨hfits, rfl⟩⟩
  unfold sendRest at h
  split at h
  swap
  · next hdone =>
    cases h
    exact ⟨rfl, Or.inl ⟨by omega, rfl⟩⟩
  next hleft =>
  cases hsbf : c.buff.sbf with
  | none =>
    rw [hsbf] at h
    cases alloc with
    | none => cases h
    | some fresh =>
      cases h
      -- `malloc` has succeeded, and so the call ends
      exact ⟨rfl, Or.inr (Or.inl ⟨hleft, Or.inl rfl, _, rfl⟩)⟩
  | some sbf =>
    rw [hsbf] at h
    simp only at h
    split at h
    · next hgrow =>
      cases alloc with
      | none =>
        cases h
        exact ⟨rfl, Or.inr (Or.inl ⟨hleft, Or.inr ⟨hgrow, rfl⟩, _, rfl⟩)⟩
      | some fresh =>
        rcases hkeep h with ⟨hrest, hkept⟩
        exact ⟨hrest, Or.inr (Or.inr ⟨hleft, rfl, fun _ => rfl, hkept⟩)⟩
    · next hroom =>
      rcases hkeep h with ⟨hrest, hkept⟩
      exact ⟨hrest, Or.inr (Or.inr ⟨hleft, rfl, fun hgrow => absurd hgrow hroom, hkept⟩)⟩

/-- **The ways through `do_fd_send`** up to what is left of its message: what waits is
written first and nothing is sent directly then, as something waits behind `do_fd_write`. -/
theorem doFdSend_cases {max : Int} {alloc : Option Mem} {c c' : SendConn} {data : Mem}
    {len r : Int} {outs rest : List SendRes}
    (h : doFdSend max alloc c data len outs = .ok (r, c', rest)) :
    (0 < c.buff.slen ∧ ∃ r₁ c₁ rest₁, doFdWrite c outs = .ok (r₁, c₁, rest₁) ∧
        (r₁ = -1 ∧ r = -1 ∧ rest = rest₁ ∧ c' = c₁.close ∨
          r₁ ≠ -1 ∧ sendRest max alloc c₁ data len 0 true rest₁ = .ok (r, c', rest))) ∨
      (c.buff.slen = 0 ∧ 0 < len ∧ ∃ s, sendLoop len 0 outs = .ok s ∧
        (s.ret = -1 ∧ r = -1 ∧ rest = s.rest ∧ c' = (c.take data s.taken).close ∨
          s.ret ≠ -1 ∧ sendRest max alloc (c.take data s.taken) data len s.ret false s.rest =
            .ok (r, c', rest))) ∨
      c.buff.slen < 0 ∧ sendRest max alloc c data len 0 false outs = .ok (r, c', rest) := by
  unfold doFdSend at h
  by_cases hpos : 0 < c.buff.slen
  · rw [if_pos hpos] at h
    cases hwrite : doFdWrite c outs with
    | error e =>
      rw [hwrite] at h
      cases h
    | ok out =>
    rcases out with ⟨r₁, c₁, rest₁⟩
    rw [hwrite] at h
    simp only at h
    left
    refine ⟨hpos, r₁, c₁, rest₁, rfl, ?_⟩
    split at h
    · next hfail =>
      cases h
      exact Or.inl ⟨hfail, rfl, rfl, rfl⟩
    · next hok =>
      -- `do_fd_write` leaves `slen` positive, so there is no direct send
      rcases doFdWrite_waits hwrite with ⟨_, _, hpos₁⟩
      unfold sendDirect at h
      rw [if_neg (by omega)] at h
      exact Or.inr ⟨hok, h⟩
  · rw [if_neg hpos] at h
    right
    unfold sendDirect safeTcpSendN at h
    by_cases hzero : c.buff.slen = 0
    · rw [if_pos hzero] at h
      left
      by_cases hlen : len ≤ 0
      · rw [if_pos hlen] at h
        cases h
      rw [if_neg hlen] at h
      refine ⟨hzero, by omega, ?_⟩
      cases hsend : sendLoop len 0 outs with
      | error e =>
        rw [hsend] at h
        cases h
      | ok s =>
      rw [hsend] at h
      simp only at h
      refine ⟨s, rfl, ?_⟩
      split at h
      · next hfail =>
        cases h
        exact Or.inl ⟨hfail, rfl, rfl, rfl⟩
      · next hok => exact Or.inr ⟨hok, h⟩
    · rw [if_neg hzero] at h
      exact Or.inr ⟨by omega, h⟩

/-! ## When `do_fd_send` closes -/

/-- The bytes that `send` takes. -/
def acceptedBytes : List SendRes → Int
  | [] => 0
  | .sent n :: outs => n + acceptedBytes outs
  | _ :: outs => acceptedBytes outs

/-- What stands in `sbf` when `do_fd_send` comes to what is left of its message. -/
def heldBack (buff : FdBuff) (outs : List SendRes) : Int :=
  if acceptedBytes outs < buff.slen then buff.slen - acceptedBytes outs else buff.slen

/-- What is left of a message of `len` bytes: nothing of it is sent directly while
something waits. -/
def leftOver (buff : FdBuff) (len : Int) (outs : List SendRes) : Int :=
  if buff.slen = 0 then len - acceptedBytes outs else len

/-- The message makes `sbf` exceed `max_buf_len`. -/
def Overflows (max : Int) (alloc : Option Mem) (buff : FdBuff) (len : Int)
    (outs : List SendRes) : Prop :=
  0 < leftOver buff len outs ∧ buff.sbf.isSome = true ∧
    (buff.sbfSize < heldBack buff outs + leftOver buff len outs → alloc.isSome = true) ∧
    max ≠ 0 ∧ max < heldBack buff outs + leftOver buff len outs

instance (max : Int) (alloc : Option Mem) (buff : FdBuff) (len : Int) (outs : List SendRes) :
    Decidable (Overflows max alloc buff len outs) :=
  inferInstanceAs (Decidable (_ ∧ _ ∧ (_ → _) ∧ _ ∧ _))

/-- The loop takes what is accepted, and returns it unless `send` fails. -/
theorem sendLoop_accepted {total : Int} : ∀ {outs : List SendRes} {sent ret taken : Int},
    sendLoop total sent outs = .ok ⟨ret, taken, []⟩ →
      taken = sent + acceptedBytes outs ∧ (ret = -1 ∧ .err ∈ outs ∨ ret = taken ∧ .err ∉ outs) := by
  intro outs
  induction outs with
  | nil =>
    intro sent ret taken h
    unfold sendLoop at h
    split at h
    · cases h
      exact ⟨by simp [acceptedBytes], Or.inr ⟨rfl, by simp⟩⟩
    · cases h
  | cons o outs ih =>
    intro sent ret taken h
    unfold sendLoop at h
    split at h
    · cases h
    cases o with
    | sent n =>
      simp only at h
      split at h
      · cases h
      · rcases ih h with ⟨htaken, hret⟩
        refine ⟨?_, by simpa using hret⟩
        rw [htaken, acceptedBytes]
        omega
    | eintr =>
      rcases ih h with ⟨htaken, hret⟩
      exact ⟨htaken, by simpa using hret⟩
    | eagain =>
      cases h
      exact ⟨by simp [acceptedBytes], Or.inr ⟨rfl, by simp⟩⟩
    | err =>
      cases h
      exact ⟨by simp [acceptedBytes], Or.inl ⟨rfl, by simp⟩⟩

/-- The end of `do_fd_send` makes no call of `send`, and closes the connection when the
buffer exceeds its limit. -/
theorem sendRest_closes {max : Int} {alloc : Option Mem} {c c' : SendConn} {data : Mem}
    {len n r : Int} {isSend : Bool} {outs rest : List SendRes} (hreg : c.registered = true)
    (h : sendRest max alloc c data len n isSend outs = .ok (r, c', rest)) :
    rest = outs ∧ (c'.registered = false ↔ n < len ∧ c.buff.sbf.isSome = true ∧
      (c.buff.sbfSize < c.buff.slen + (len - n) → alloc.isSome = true) ∧
      max ≠ 0 ∧ max < c.buff.slen + (len - n)) := by
  rcases sendRest_cases h with
    ⟨hrest, ⟨hdone, rfl⟩ | ⟨_, hfull, _, rfl⟩ | ⟨hleft, hsbf, hroom, hkept⟩⟩
  · refine ⟨hrest, fun hno => ?_, fun hall => ?_⟩
    · rw [sendEvents_registered, hreg] at hno
      cases hno
    · omega
  · refine ⟨hrest, fun hno => ?_, fun hall => ?_⟩
    · cases hreg.symm.trans hno
    · rcases hfull with hnone | ⟨hgrow, hnone⟩
      · cases hnone.symm.trans hall.2.1
      · cases hnone.symm.trans (hall.2.2.1 hgrow)
  · rcases hkept with ⟨buff, hslen, ⟨hover, rfl⟩ | ⟨hfits, rfl⟩⟩
    · rw [hslen] at hover
      exact ⟨hrest, fun _ => ⟨hleft, hsbf, hroom, hover⟩, fun _ => rfl⟩
    · rw [hslen] at hfits
      refine ⟨hrest, fun hno => ?_, fun hall => absurd hall.2.2.2 hfits⟩
      rw [sendEvents_registered] at hno
      cases hreg.symm.trans hno

/-- The kernel gives nothing back. -/
theorem acceptedBytes_nonneg (outs : List SendRes) : 0 ≤ acceptedBytes outs := by
  induction outs with
  | nil => exact Int.le_refl 0
  | cons o outs ih =>
    cases o with
    | sent n =>
      rw [acceptedBytes]
      omega
    | eintr | eagain | err => exact ih

/-- `do_fd_write` of what waits: it fails with `send`, or leaves what `send` has not
taken, and all of it when `send` has taken all. -/
theorem doFdWrite_accepted {c c' : SendConn} {r : Int} {outs rest : List SendRes}
    (hpos : 0 < c.buff.slen) (h : doFdWrite c outs = .ok (r, c', rest)) (hrest : rest = []) :
    r = -1 ∧ .err ∈ outs ∨
      r ≠ -1 ∧ .err ∉ outs ∧ c'.registered = c.registered ∧ c'.buff.slen = heldBack c.buff outs ∧
        0 < c'.buff.slen ∧ c'.buff.sbf.isSome = true ∧ c.buff.sbf.isSome = true ∧
        c'.buff.sbfSize = c.buff.sbfSize := by
  rcases doFdWrite_cases h with ⟨s, hsend, hr, hrest', _, hcase⟩
  rcases s with ⟨ret, taken, rest'⟩
  simp only at hr hrest' hcase
  rw [← hrest', hrest] at hsend
  have hnonneg := acceptedBytes_nonneg outs
  rcases sendLoop_accepted hsend with ⟨htaken, ⟨hret, herr⟩ | ⟨hret, hno⟩⟩
  · exact Or.inl ⟨by omega, herr⟩
  right
  rcases hcase with ⟨_, hfail, _⟩ | ⟨sbf, hsbf, ⟨_, hless, rfl⟩ | ⟨hwhole, rfl⟩⟩
  · omega
  · refine ⟨by omega, hno, rfl, ?_, by simp only; omega, rfl, by rw [hsbf]; rfl, rfl⟩
    unfold heldBack
    rw [if_pos (by omega)]
    simp only
    omega
  · -- none of it is taken, or all of it
    refine ⟨by omega, hno, rfl, ?_, hpos, by simp [SendConn.take, hsbf], by simp [hsbf], rfl⟩
    unfold heldBack
    by_cases hless : acceptedBytes outs < c.buff.slen
    · rw [if_pos hless]
      simp only [SendConn.take]
      omega
    · rw [if_neg hless]
      rfl

/-- **When `do_fd_send` closes the connection**: `send` fails, or the buffer exceeds its
limit. -/
theorem doFdSend_closes_iff {max : Int} {alloc : Option Mem} {c c' : SendConn} {data : Mem}
    {len r : Int} {outs : List SendRes} (hreg : c.registered = true)
    (h : doFdSend max alloc c data len outs = .ok (r, c', [])) :
    c'.registered = false ↔ .err ∈ outs ∨ Overflows max alloc c.buff len outs := by
  have hnonneg := acceptedBytes_nonneg outs
  rcases doFdSend_cases h with
    ⟨hpos, r₁, c₁, rest₁, hwrite, hcase⟩ | ⟨hzero, _, s, hsend, hcase⟩ | ⟨hneg, hkept⟩
  · rcases hcase with ⟨hfail, _, hrest, rfl⟩ | ⟨hok, hkept⟩
    · rcases doFdWrite_accepted hpos hwrite hrest.symm with ⟨_, herr⟩ | ⟨hok, _⟩
      · exact ⟨fun _ => Or.inl herr, fun _ => rfl⟩
      · exact absurd hfail hok
    · rcases doFdWrite_waits hwrite with ⟨hreg₁, _, _⟩
      rcases sendRest_closes (hreg₁.trans hreg) hkept with ⟨hrest, hiff⟩
      rcases doFdWrite_accepted hpos hwrite hrest.symm with
        ⟨hfail, _⟩ | ⟨_, hno, _, hslen, _, hsbf₁, hsbf, hsize⟩
      · exact absurd hfail hok
      have hleft : leftOver c.buff len outs = len := if_neg (by omega)
      rw [hiff, Int.sub_zero, hslen, hsize, hsbf₁]
      unfold Overflows
      rw [hleft, hsbf]
      exact ⟨Or.inr, fun hcase => hcase.resolve_left hno⟩
  · rcases s with ⟨ret, taken, rest⟩
    simp only at hcase
    rcases hcase with ⟨hfail, _, hrest, rfl⟩ | ⟨hok, hkept⟩
    · rw [← hrest] at hsend
      rcases sendLoop_accepted hsend with ⟨htaken, ⟨_, herr⟩ | ⟨hret, _⟩⟩
      · exact ⟨fun _ => Or.inl herr, fun _ => rfl⟩
      · omega
    · rcases sendRest_closes (c := c.take data taken) hreg hkept with ⟨hrest, hiff⟩
      rw [← hrest] at hsend
      rcases sendLoop_accepted hsend with ⟨htaken, ⟨hfail, _⟩ | ⟨hret, hno⟩⟩
      · exact absurd hfail hok
      have hheld : heldBack c.buff outs = c.buff.slen := if_neg (by omega)
      have hleft : leftOver c.buff len outs = len - ret := by
        unfold leftOver
        rw [if_pos hzero]
        omega
      rw [hiff]
      unfold Overflows
      rw [hheld, hleft]
      have hsub : ret < len ↔ 0 < len - ret := by omega
      rw [hsub]
      exact ⟨Or.inr, fun hcase => hcase.resolve_left hno⟩
  · -- no call of `send`
    rcases sendRest_closes hreg hkept with ⟨hrest, hiff⟩
    have hheld : heldBack c.buff outs = c.buff.slen := if_neg (by omega)
    have hleft : leftOver c.buff len outs = len := if_neg (by omega)
    have hno : .err ∉ outs := by simp [← hrest]
    rw [hiff, Int.sub_zero]
    unfold Overflows
    rw [hheld, hleft]
    exact ⟨Or.inr, fun hcase => hcase.resolve_left hno⟩

end SServer.Net
