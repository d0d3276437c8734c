import SServer.Net.Buff

/-!
# SServer.Net.Recv — `safe_tcp_recv_n` and `handle_read`

How bytes get from the kernel into the receive buffer. As in
`SServer.Net.Send`, the answers of `recv` are a list handed from call to call.
`safe_tcp_recv_n` returns `0` both when the peer has shut down, whatever it has
read before, and when there is nothing to read; `handle_read` takes either for
a closed peer.

* `recvLoop_spec`: what a call of `safe_tcp_recv_n` has received when it returns.
* `readMapped_cases`, `handleRead_cases`: how `handle_read` ends and how it starts. It starts
  from zero lengths where the buffer is mapped by it.
* `handleRead_bounds`: `handle_read` keeps `rlen` inside the buffer.

A failed `mmap` leaves `MAP_FAILED` in `rbf`. The next call does not map again and reads to that
address, which `recv` answers by `EFAULT`. The room in the buffer is a difference of ints, so an
`rlen` far below zero makes it negative.
-/

namespace SServer.Net

open SServer.Lib

/-- An answer of `recv`. -/
inductive RecvRes where
  | data (bs : List UInt8)
  -- an orderly shutdown
  | eof
  | eintr
  -- `EAGAIN` or `EWOULDBLOCK`
  | eagain
  -- any other `errno`
  | err
deriving DecidableEq

/-- What a call of `safe_tcp_recv_n` returned, the bytes it stored behind its
pointer meanwhile, and the answers left over. -/
structure Recvd where
  ret : Int
  got : List UInt8
  rest : List RecvRes

/-- The loop of `safe_tcp_recv_n`, with the bytes `got` behind it. -/
def recvLoop (total : Int) : List UInt8 → List RecvRes → Except Fault Recvd
  | got, outs =>
    if total ≤ got.length then .ok ⟨got.length, got, outs⟩
    else
      match outs with
      | [] => .error .noAnswer
      | .data bs :: outs =>
        if bs = [] ∨ total < got.length + bs.length then .error .noAnswer
        else recvLoop total (got ++ bs) outs
      | .eof :: outs => .ok ⟨0, got, outs⟩
      | .eintr :: outs => recvLoop total got outs
      | .eagain :: outs => .ok ⟨got.length, got, outs⟩
      | .err :: outs => .ok ⟨-1, got, outs⟩

/-- `safe_tcp_recv_n`. -/
def safeTcpRecvN (total : Int) (outs : List RecvRes) : Except Fault Recvd :=
  if total ≤ 0 then .error .assertFailed else recvLoop total [] outs

/-- A connection as the reading functions see it: its buffers, and whether its
node is in the readlist. -/
structure RecvConn where
  buff : FdBuff
  readlist : Bool

/-- A connection as `add_fdinfo_to_epinfo` registers it. -/
def recvInit : RecvConn := { buff := emptyBuff, readlist := false }

/-- `handle_read` from the test for a full buffer on, with the mapped bytes `mem`. -/
def readMapped (max : Int) (mem : Mem) (c : RecvConn) (outs : List RecvRes) :
    Except Fault (Int × RecvConn × List RecvRes) :=
  if max ≤ c.buff.rlen then .ok (0, c, outs)
  else
    match safeTcpRecvN (intSub max c.buff.rlen) outs with
    | .error e => .error e
    | .ok r =>
      let stored := memcpy mem c.buff.rlen (ofBytes r.got) r.got.length
      if 0 < r.ret then
        let buff := { c.buff with rbf := .mapped stored, rlen := c.buff.rlen + r.ret }
        -- `do_add_to_readlist` or `do_del_from_readlist`
        .ok (r.ret, { buff := buff, readlist := decide (buff.rlen = max) }, r.rest)
      else .ok (-1, { c with buff := { c.buff with rbf := .mapped stored } }, r.rest)

/-- `handle_read` from there on with `MAP_FAILED`. `recv` stores nothing behind it and answers
`EFAULT`, one of the errors. -/
def readFailed (max : Int) (c : RecvConn) (outs : List RecvRes) :
    Except Fault (Int × RecvConn × List RecvRes) :=
  if max ≤ c.buff.rlen then .ok (0, c, outs)
  else
    match safeTcpRecvN (intSub max c.buff.rlen) outs with
    | .error e => .error e
    | .ok r => if r.ret = -1 ∧ r.got = [] then .ok (-1, c, r.rest) else .error .noAnswer

/-- `handle_read`, with `setting.max_buf_len` as `max`; `mapped` says whether a
first `mmap`, of zeroed pages, succeeds. -/
def handleRead (max : Int) (mapped : Bool) (c : RecvConn) (outs : List RecvRes) :
    Except Fault (Int × RecvConn × List RecvRes) :=
  match c.buff.rbf with
  | .null =>
    let buff := { c.buff with msglen := 0, rlen := 0 }
    if mapped then
      let mem : Mem := fun _ => 0
      readMapped max mem { c with buff := { buff with rbf := .mapped mem } } outs
    else .ok (-1, { c with buff := { buff with rbf := .failed } }, outs)
  | .failed => readFailed max c outs
  | .mapped mem => readMapped max mem c outs

/-! ## Bounds -/

/-- The loop stores at most the total, and returns what it stored unless it
returns `0` or `-1`. -/
theorem recvLoop_spec {total : Int} : ∀ {outs : List RecvRes} {got : List UInt8} {r : Recvd},
    got.length ≤ total → recvLoop total got outs = .ok r →
    r.got.length ≤ total ∧ (r.ret = r.got.length ∨ r.ret = 0 ∨ r.ret = -1) := by
  intro outs
  induction outs with
  | nil =>
    intro got r hle h
    unfold recvLoop at h
    by_cases hdone : total ≤ got.length
    · rw [if_pos hdone] at h
      cases h
      exact ⟨hle, Or.inl rfl⟩
    · rw [if_neg hdone] at h
      cases h
  | cons o outs ih =>
    intro got r hle h
    unfold recvLoop at h
    by_cases hdone : total ≤ got.length
    · rw [if_pos hdone] at h
      cases h
      exact ⟨hle, Or.inl rfl⟩
    rw [if_neg hdone] at h
    cases o with
    | data bs =>
      simp only at h
      by_cases hbad : bs = [] ∨ total < got.length + bs.length
      · rw [if_pos hbad] at h
        cases h
      · rw [if_neg hbad] at h
        refine ih ?_ h
        rw [List.length_append]
        omega
    | eof =>
      cases h
      exact ⟨hle, Or.inr (Or.inl rfl)⟩
    | eintr => exact ih hle h
    | eagain =>
      cases h
      exact ⟨hle, Or.inl rfl⟩
    | err =>
      cases h
      exact ⟨hle, Or.inr (Or.inr rfl)⟩

/-- A call of `safe_tcp_recv_n` that returns has met its assertion. -/
theorem safeTcpRecvN_ok {total : Int} {outs : List RecvRes} {rd : Recvd}
    (h : safeTcpRecvN total outs = .ok rd) : 0 < total ∧ recvLoop total [] outs = .ok rd := by
  unfold safeTcpRecvN at h
  by_cases hneg : total ≤ 0
  · rw [if_pos hneg] at h
    cases h
  · rw [if_neg hneg] at h
    exact ⟨by omega, h⟩

/-- **How `handle_read` ends** on mapped bytes: the buffer was full, or what
`safe_tcp_recv_n` received is stored behind `rlen`, which moves over it unless
the call fails. -/
theorem readMapped_cases {max : Int} {mem : Mem} {c c' : RecvConn} {outs rest : List RecvRes}
    {r : Int} (h : readMapped max mem c outs = .ok (r, c', rest)) :
    max ≤ c.buff.rlen ∧ r = 0 ∧ c' = c ∧ rest = outs ∨
      c.buff.rlen < max ∧ ∃ total rd stored, 0 < total ∧ total ≤ max - c.buff.rlen ∧
        recvLoop total [] outs = .ok rd ∧ rest = rd.rest ∧
        stored = memcpy mem c.buff.rlen (ofBytes rd.got) rd.got.length ∧
        (0 < rd.ret ∧ r = rd.ret ∧
            c'.buff = { c.buff with rbf := .mapped stored, rlen := c.buff.rlen + rd.ret } ∨
          rd.ret ≤ 0 ∧ r = -1 ∧ c'.buff = { c.buff with rbf := .mapped stored }) := by
  unfold readMapped at h
  by_cases hfull : max ≤ c.buff.rlen
  · rw [if_pos hfull] at h
    cases h
    exact Or.inl ⟨hfull, rfl, rfl, rfl⟩
  right
  have hle : intSub max c.buff.rlen ≤ max - c.buff.rlen := intSub_le (by omega)
  rw [if_neg hfull] at h
  cases hrecv : safeTcpRecvN (intSub max c.buff.rlen) outs with
  | error e =>
    rw [hrecv] at h
    cases h
  | ok rd =>
    rw [hrecv] at h
    rcases safeTcpRecvN_ok hrecv with ⟨htotal, hloop⟩
    simp only at h
    by_cases hpos : 0 < rd.ret
    · rw [if_pos hpos] at h
      cases h
      exact ⟨by omega, _, rd, _, htotal, hle, hloop, rfl, rfl, Or.inl ⟨hpos, rfl, rfl⟩⟩
    · rw [if_neg hpos] at h
      cases h
      exact ⟨by omega, _, rd, _, htotal, hle, hloop, rfl, rfl, Or.inr ⟨by omega, rfl, rfl⟩⟩

/-- `MAP_FAILED` is left alone, unless `recv` fails. -/
theorem readFailed_cases {max : Int} {c c' : RecvConn} {outs rest : List RecvRes} {r : Int}
    (h : readFailed max c outs = .ok (r, c', rest)) :
    c' = c ∧ (max ≤ c.buff.rlen ∧ r = 0 ∧ rest = outs ∨
      c.buff.rlen < max ∧ r = -1 ∧ ∃ total rd, 0 < total ∧ recvLoop total [] outs = .ok rd ∧
        rd.ret = -1 ∧ rest = rd.rest) := by
  unfold readFailed at h
  by_cases hfull : max ≤ c.buff.rlen
  · rw [if_pos hfull] at h
    cases h
    exact ⟨rfl, Or.inl ⟨hfull, rfl, rfl⟩⟩
  rw [if_neg hfull] at h
  cases hrecv : safeTcpRecvN (intSub max c.buff.rlen) outs with
  | error e =>
    rw [hrecv] at h
    cases h
  | ok rd =>
    rw [hrecv] at h
    rcases safeTcpRecvN_ok hrecv with ⟨htotal, hloop⟩
    simp only at h
    by_cases hfail : rd.ret = -1 ∧ rd.got = []
    · rw [if_pos hfail] at h
      cases h
      exact ⟨rfl, Or.inr ⟨by omega, rfl, _, rd, htotal, hloop, hfail.1, rfl⟩⟩
    · rw [if_neg hfail] at h
      cases h

/-- **How `handle_read` starts**: it maps the bytes when there are none, from
zero lengths, and fails when it cannot. -/
theorem handleRead_cases {max : Int} {mapped : Bool} {c c' : RecvConn} {outs rest : List RecvRes}
    {r : Int} (h : handleRead max mapped c outs = .ok (r, c', rest)) :
    (c.buff.rbf = .null ∧
      (mapped = false ∧ r = -1 ∧ rest = outs ∧
          c' = { c with buff := { c.buff with msglen := 0, rlen := 0, rbf := .failed } } ∨
        mapped = true ∧ readMapped max (fun _ => 0)
          { c with buff := { c.buff with msglen := 0, rlen := 0, rbf := .mapped fun _ => 0 } }
          outs = .ok (r, c', rest))) ∨
      (c.buff.rbf = .failed ∧ readFailed max c outs = .ok (r, c', rest)) ∨
      ∃ mem, c.buff.rbf = .mapped mem ∧ readMapped max mem c outs = .ok (r, c', rest) := by
  unfold handleRead at h
  cases hrbf : c.buff.rbf with
  | null =>
    rw [hrbf] at h
    left
    refine ⟨rfl, ?_⟩
    cases mapped with
    | false =>
      cases h
      exact Or.inl ⟨rfl, rfl, rfl, rfl⟩
    | true => exact Or.inr ⟨rfl, h⟩
  | failed =>
    rw [hrbf] at h
    exact Or.inr (Or.inl ⟨rfl, h⟩)
  | mapped mem =>
    rw [hrbf] at h
    exact Or.inr (Or.inr ⟨mem, rfl, h⟩)

/-- A read into mapped bytes keeps `rlen` inside the buffer and `msglen` as it is. -/
theorem readMapped_bounds {max : Int} {mem : Mem} {c c' : RecvConn} {outs rest : List RecvRes}
    {r : Int} (h0 : 0 ≤ c.buff.rlen) (hmax : c.buff.rlen ≤ max)
    (h : readMapped max mem c outs = .ok (r, c', rest)) :
    0 ≤ c'.buff.rlen ∧ c'.buff.rlen ≤ max ∧ c'.buff.msglen = c.buff.msglen := by
  rcases readMapped_cases h with
    ⟨_, _, rfl, _⟩ | ⟨hroom, total, rd, stored, hpos, htotal, hrecv, _, _, hcase⟩
  · exact ⟨h0, hmax, rfl⟩
  have hzero : (([] : List UInt8).length : Int) ≤ total := by
    simp
    omega
  rcases recvLoop_spec hzero hrecv with ⟨hlen, hret⟩
  rcases hcase with ⟨hpos, _, hbuff⟩ | ⟨_, _, hbuff⟩
  · rw [hbuff]
    refine ⟨by simp only; omega, by simp only; omega, rfl⟩
  · rw [hbuff]
    exact ⟨h0, hmax, rfl⟩

/-- **`handle_read`** keeps `rlen` inside the buffer and `msglen` as it is, or
starts both at zero. -/
theorem handleRead_bounds {max : Int} {mapped : Bool} {c c' : RecvConn} {outs rest : List RecvRes}
    {r : Int} (h0 : 0 ≤ c.buff.rlen) (hmax : c.buff.rlen ≤ max)
    (h : handleRead max mapped c outs = .ok (r, c', rest)) :
    0 ≤ c'.buff.rlen ∧ c'.buff.rlen ≤ max ∧
      (c'.buff.msglen = c.buff.msglen ∨ c'.buff.msglen = 0) := by
  rcases handleRead_cases h with
    ⟨_, ⟨_, _, _, rfl⟩ | ⟨_, hread⟩⟩ | ⟨_, hread⟩ | ⟨mem, _, hread⟩
  · exact ⟨Int.le_refl 0, by simp only; omega, Or.inr rfl⟩
  · rcases readMapped_bounds (Int.le_refl 0) (by simp only; omega) hread with ⟨hlo, hhi, hmsg⟩
    exact ⟨hlo, hhi, Or.inr hmsg⟩
  · rcases readFailed_cases hread with ⟨rfl, _⟩
    exact ⟨h0, hmax, Or.inl rfl⟩
  · rcases readMapped_bounds h0 hmax hread with ⟨hlo, hhi, hmsg⟩
    exact ⟨hlo, hhi, Or.inl hmsg⟩

/-! ## A read that fits -/

/-- Bytes that are asked for, when they come first: the loop goes on behind them. -/
theorem safeTcpRecvN_data {total : Int} {chunk : List UInt8} (hne : chunk ≠ [])
    (hle : chunk.length ≤ total) (outs : List RecvRes) :
    safeTcpRecvN total (.data chunk :: outs) = recvLoop total chunk outs := by
  have hlen := List.length_pos_iff.mpr hne
  unfold safeTcpRecvN
  rw [if_neg (by omega), recvLoop, if_neg (by rw [List.length_nil]; omega)]
  simp only [List.length_nil, List.nil_append, Int.natCast_zero, Int.zero_add]
  rw [if_neg (by simp only [hne, false_or]; omega)]

/-- Bytes that arrive and find room are stored behind those kept, and are all
that the read returns. -/
theorem handleRead_fits {max : Int} {c : RecvConn} {chunk : List UInt8} (hne : chunk ≠ [])
    (h0 : 0 ≤ c.buff.rlen) (hfit : c.buff.rlen + chunk.length ≤ max)
    (hmap : (∃ mem, c.buff.rbf = .mapped mem) ∨
      c.buff.rbf = .null ∧ c.buff.rlen = 0 ∧ c.buff.msglen = 0) :
    ∃ c' rest, handleRead max true c [.data chunk, .eagain] = .ok (chunk.length, c', rest) ∧
      c'.buff.rlen = c.buff.rlen + chunk.length ∧ c'.buff.msglen = c.buff.msglen ∧
      c'.buff.rbf = .mapped
        (memcpy c.buff.rbf.mem c.buff.rlen (ofBytes chunk) chunk.length) := by
  have hpos : 0 < (chunk.length : Int) := by
    have hlen := List.length_pos_iff.mpr hne
    omega
  -- `recv` is called again only if there is room left, and answers EAGAIN
  have hrecv : ∀ total : Int, chunk.length ≤ total →
      ∃ rest, safeTcpRecvN total [.data chunk, .eagain] = .ok ⟨chunk.length, chunk, rest⟩ := by
    intro total htotal
    rw [safeTcpRecvN_data hne htotal, recvLoop]
    by_cases hall : total ≤ chunk.length
    · rw [if_pos hall]
      exact ⟨_, rfl⟩
    · rw [if_neg hall]
      exact ⟨_, rfl⟩
  -- what is behind the allocation, which is the same on both paths
  have hread : ∀ (mem : Mem) (c : RecvConn), 0 ≤ c.buff.rlen →
      c.buff.rlen + chunk.length ≤ max →
      ∃ c' rest, readMapped max mem c [.data chunk, .eagain] = .ok (chunk.length, c', rest) ∧
        c'.buff.rlen = c.buff.rlen + chunk.length ∧ c'.buff.msglen = c.buff.msglen ∧
        c'.buff.rbf = .mapped (memcpy mem c.buff.rlen (ofBytes chunk) chunk.length) := by
    intro mem c h0 hc
    rcases hrecv (max - c.buff.rlen) (by omega) with ⟨rest, hr⟩
    unfold readMapped
    rw [if_neg (by omega), intSub_of_le h0 (by omega), hr]
    simp only
    rw [if_pos hpos]
    exact ⟨_, _, rfl, rfl, rfl, rfl⟩
  unfold handleRead
  rcases hmap with ⟨mem, hmem⟩ | ⟨hnull, hr, hm⟩
  · rw [hmem]
    exact hread mem c h0 hfit
  · rw [hnull]
    rw [hr] at hfit ⊢
    rw [hm]
    exact hread (fun _ => 0)
      { c with buff := { c.buff with msglen := 0, rlen := 0, rbf := .mapped fun _ => 0 } }
      (Int.le_refl 0) hfit

end SServer.Net
