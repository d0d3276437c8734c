import SServer.Lib.Run
import SServer.Net.Stream

/-!
# SServer.Net.Capacity — fill level, capacity and block of the send buffer

Three numbers describe `sbf`: `slen` bytes wait in it, `sbf_size` says how many it
holds, and the heap knows how large the block is. They are updated at different points
of `do_fd_send`: its return from the first allocation leaves a block with `sbf_size`
still zero, and the next message that is not sent at once has it reallocated.

The result: through every run of the calls on a connection the three are in order, every
copy into `sbf` stays inside the block, and a `do_fd_send` that returns `0` keeps the
limit `max_buf_len`. The copies are checked by versions of the functions that stop at a
copy which leaves the block.

* `boundedSend_eq`, `boundedWrite_eq`: where the numbers are in order the checked functions are
  the unchecked ones, so no copy leaves its block.
* `doFdSend_capOk`, `doFdWrite_capOk`: each call keeps the numbers in order.
* `capacity_in_order`: the result, over whole runs.

The lengths are integers, so the sums in `do_fd_send` do not wrap here. Nothing is said about
the bytes themselves; that is `SServer.Net.Stream`.
-/

namespace SServer.Net

open SServer.Lib

/-! ## Checked copies -/

/-- `memcpy` of `n` bytes to the offset `d` of a block, if they fit. -/
def HeapBlk.store (b : HeapBlk) (d : Int) (src : Mem) (n : Int) : Option HeapBlk :=
  if 0 ≤ d ∧ 0 ≤ n ∧ d + n ≤ b.size then some { b with mem := memcpy b.mem d src n } else none

/-- `memmove` of `n` bytes of a block from the offset `s` to `d`, if both are in it. -/
def HeapBlk.move (b : HeapBlk) (d s n : Int) : Option HeapBlk :=
  if 0 ≤ s ∧ s + n ≤ b.size then b.store d (b.mem.ptr s) n else none

/-- A copy that fits is made. -/
theorem HeapBlk.store_eq {b : HeapBlk} {d n : Int} (src : Mem) (hd : 0 ≤ d) (hn : 0 ≤ n)
    (hfit : d + n ≤ b.size) :
    b.store d src n = some { b with mem := memcpy b.mem d src n } := if_pos ⟨hd, hn, hfit⟩

/-- So is a move inside the block. -/
theorem HeapBlk.move_eq {b : HeapBlk} {d s n : Int} (hd : 0 ≤ d) (hs : 0 ≤ s) (hn : 0 ≤ n)
    (hto : d + n ≤ b.size) (hfrom : s + n ≤ b.size) :
    b.move d s n = some { b with mem := memcpy b.mem d (b.mem.ptr s) n } := by
  unfold HeapBlk.move
  rw [if_pos ⟨hs, hfrom⟩]
  exact HeapBlk.store_eq _ hd hn hto

/-- `do_fd_write`, unless a copy leaves the block. -/
def boundedWrite (c : SendConn) (outs : List SendRes) : Option SendOut :=
  match c.buff.sbf with
  | none =>
    match safeTcpSendN c.buff.slen outs with
    | .error e => some (.error e)
    | .ok s =>
      if s.ret = -1 ∧ s.taken = 0 then some (.ok (-1, c, s.rest)) else some (.error .noAnswer)
  | some sbf =>
    match safeTcpSendN c.buff.slen outs with
    | .error e => some (.error e)
    | .ok s =>
      let c := c.take sbf.mem s.taken
      if s.ret = 0 then some (.ok (0, c, s.rest))
      else if 0 < s.ret then
        if s.ret < c.buff.slen then
          (sbf.move 0 s.ret (c.buff.slen - s.ret)).map fun sbf =>
            let buff := { c.buff with sbf := some sbf, slen := c.buff.slen - s.ret }
            .ok (s.ret, { c with buff := buff }, s.rest)
        else some (.ok (s.ret, c, s.rest))
      else some (.ok (s.ret, c, s.rest))

/-- `sendKeep`, unless its copy leaves the block. -/
def boundedKeep (max : Int) (c : SendConn) (sbf : HeapBlk) (data : Mem) (len sendLen : Int)
    (isSend : Bool) (outs : List SendRes) : Option SendOut :=
  let leftLen := len - sendLen
  (sbf.store c.buff.slen (data.ptr sendLen) leftLen).map fun sbf =>
    let c := { c with buff := { c.buff with
      sbf := some sbf
      slen := c.buff.slen + leftLen } }
    if max ≠ 0 ∧ max < c.buff.slen then .ok (-1, c.close, outs)
    else .ok (0, sendEvents c isSend, outs)

/-- `sendRest`, unless a copy leaves the block. -/
def boundedRest (max : Int) (alloc : Option Mem) (c : SendConn) (data : Mem) (len sendLen : Int)
    (isSend : Bool) (outs : List SendRes) : Option SendOut :=
  if sendLen < len then
    let leftLen := len - sendLen
    match c.buff.sbf with
    | none =>
      match alloc with
      | some fresh =>
        some (.ok (-1, { c with buff := { c.buff with sbf := some ⟨leftLen, fresh⟩ } }, outs))
      | none => some (.error .nullAccess)
    | some sbf =>
      if c.buff.sbfSize < c.buff.slen + leftLen then
        match alloc with
        | none => some (.ok (-1, { c with buff := { c.buff with sbf := none } }, outs))
        | some fresh =>
          let grown : HeapBlk :=
            { size := c.buff.slen + leftLen
              mem := fun i => if i < sbf.size then sbf.mem i else fresh i }
          let c := { c with buff := { c.buff with
            sbf := some grown
            sbfSize := leftLen + c.buff.slen } }
          boundedKeep max c grown data len sendLen isSend outs
      else boundedKeep max c sbf data len sendLen isSend outs
  else some (.ok (0, sendEvents c isSend, outs))

/-- `sendDirect`, unless a copy leaves the block. -/
def boundedDirect (max : Int) (alloc : Option Mem) (c : SendConn) (data : Mem) (len : Int)
    (isSend : Bool) (outs : List SendRes) : Option SendOut :=
  if c.buff.slen = 0 then
    match safeTcpSendN len outs with
    | .error e => some (.error e)
    | .ok s =>
      let c := c.take data s.taken
      if s.ret = -1 then some (.ok (-1, c.close, s.rest))
      else boundedRest max alloc c data len s.ret isSend s.rest
  else boundedRest max alloc c data len 0 isSend outs

/-- `do_fd_send`, unless a copy leaves the block. -/
def boundedSend (max : Int) (alloc : Option Mem) (c : SendConn) (data : Mem) (len : Int)
    (outs : List SendRes) : Option SendOut :=
  if 0 < c.buff.slen then
    (boundedWrite c outs).bind fun
      | .error e => some (.error e)
      | .ok (r, c, outs) =>
        if r = -1 then some (.ok (-1, c.close, outs))
        else boundedDirect max alloc c data len true outs
  else boundedDirect max alloc c data len false outs

/-! ## Runs -/

/-- The calls on a connection; `ctl` says whether `epoll_ctl` accepts the descriptor, and
`fresh` are the bytes of a block that is allocated. -/
inductive CapLbl where
  | add (ctl : Bool)
  | send (data : Mem) (len : Int) (fresh : Mem) (outs : List SendRes)
  | write (outs : List SendRes)
  | close

/-- An entry of the zeroed table. -/
def capInit : SendConn :=
  { buff := emptyBuff, registered := false, epollout := false, wire := [] }

/-- The state behind a call that returns. -/
def SendOut.conn : SendOut → Option SendConn
  | .ok (_, c, _) => some c
  | .error _ => none

/-- One call; allocations succeed. -/
def capStep (max : Int) : CapLbl → SendConn → Option SendConn
  | .add ctl, c =>
    some (if ctl then { c with buff := emptyBuff, registered := true, epollout := false } else c)
  | .send data len fresh outs, c =>
    if 0 < len then SendOut.conn (doFdSend max (some fresh) c data len outs) else none
  | .write outs, c => SendOut.conn (doFdWrite c outs)
  | .close, c => some (if c.registered then c.close else c)

/-- What is to hold of a buffer: fill level, capacity and block are in order, and where
there is no block there is nothing. -/
structure CapOk (b : FdBuff) : Prop where
  nonneg : 0 ≤ b.slen
  fill : b.slen ≤ b.sbfSize
  block : ∀ sbf, b.sbf = some sbf → b.sbfSize ≤ sbf.size
  null : b.sbf = none → b.slen = 0 ∧ b.sbfSize = 0

/-- What is to hold of a call: its copies stay inside the block. -/
def CopiesInside (max : Int) : CapLbl → SendConn → Prop
  | .send data len fresh outs, c => boundedSend max (some fresh) c data len outs ≠ none
  | .write outs, c => boundedWrite c outs ≠ none
  | _, _ => True

/-- What is to hold of a call: a `do_fd_send` that returns `0` keeps the limit. -/
def LimitKept (max : Int) : CapLbl → SendConn → Prop
  | .send data len fresh outs, c => 0 < len → ∀ c' rest,
      doFdSend max (some fresh) c data len outs = .ok (0, c', rest) → 0 < max → c'.buff.slen ≤ max
  | _, _ => True

/-! ## The functions keep the order -/

/-- An entry of the zeroed table is in order. -/
theorem capOk_empty : CapOk emptyBuff := by
  refine ⟨Int.le_refl 0, Int.le_refl 0, fun sbf h => ?_, fun _ => ⟨rfl, rfl⟩⟩
  cases h

/-- A loop that returns a count has not sent more than the total. -/
theorem sendLoop_le {total : Int} {outs : List SendRes} {s : Sent} (htotal : 0 ≤ total)
    (h : sendLoop total 0 outs = .ok s) : s.ret = -1 ∨ 0 ≤ s.ret ∧ s.ret ≤ total := by
  rcases sendLoop_spec htotal h with ⟨hret, _⟩ | ⟨hret, hlo, hhi, _⟩
  · exact Or.inl hret
  · exact Or.inr ⟨by omega, by omega⟩

/-- `do_fd_write` moves what is left inside the block. -/
theorem boundedWrite_eq {c : SendConn} (h : CapOk c.buff) (outs : List SendRes) :
    boundedWrite c outs = some (doFdWrite c outs) := by
  unfold boundedWrite doFdWrite
  cases hsbf : c.buff.sbf with
  | none =>
    simp only
    cases safeTcpSendN c.buff.slen outs with
    | error e => rfl
    | ok s => exact (apply_ite some _ _ _).symm
  | some sbf =>
  simp only
  cases safeTcpSendN c.buff.slen outs with
  | error e => rfl
  | ok s =>
  have hfill := h.fill
  have hblock := h.block sbf hsbf
  simp only
  by_cases hnone : s.ret = 0
  · rw [if_pos hnone, if_pos hnone]
  rw [if_neg hnone, if_neg hnone]
  by_cases hsome : 0 < s.ret
  · rw [if_pos hsome, if_pos hsome]
    by_cases hless : s.ret < (c.take sbf.mem s.taken).buff.slen
    · have hslen : (c.take sbf.mem s.taken).buff.slen = c.buff.slen := rfl
      rw [if_pos hless, if_pos hless]
      exact congrArg _ (HeapBlk.move_eq (Int.le_refl 0) (by omega) (by omega) (by omega) (by omega))
    · rw [if_neg hless, if_neg hless]
  · rw [if_neg hsome, if_neg hsome]

/-- A block with room for what is left takes it. -/
theorem boundedKeep_eq {c : SendConn} {sbf : HeapBlk} {len n : Int} (max : Int) (data : Mem)
    (isSend : Bool) (outs : List SendRes) (hlo : 0 ≤ c.buff.slen) (hleft : n < len)
    (hroom : c.buff.slen + (len - n) ≤ sbf.size) :
    boundedKeep max c sbf data len n isSend outs =
      some (sendKeep max c sbf data len n isSend outs) := by
  unfold boundedKeep sendKeep
  simp only
  rw [HeapBlk.store_eq _ hlo (by omega) hroom]
  rfl

/-- There is room wherever `do_fd_send` copies. -/
theorem boundedRest_eq {c : SendConn} (h : CapOk c.buff) (max : Int) (alloc : Option Mem)
    (data : Mem) (len n : Int) (isSend : Bool) (outs : List SendRes) :
    boundedRest max alloc c data len n isSend outs =
      some (sendRest max alloc c data len n isSend outs) := by
  unfold boundedRest sendRest
  by_cases hleft : n < len
  swap
  · rw [if_neg hleft, if_neg hleft]
  rw [if_pos hleft, if_pos hleft]
  cases hsbf : c.buff.sbf with
  | none =>
    cases alloc with
    | none => rfl
    | some fresh => rfl
  | some sbf =>
    simp only
    by_cases hgrow : c.buff.sbfSize < c.buff.slen + (len - n)
    · rw [if_pos hgrow, if_pos hgrow]
      cases alloc with
      | none => rfl
      | some fresh => exact boundedKeep_eq max data isSend outs h.nonneg hleft (Int.le_refl _)
    · rw [if_neg hgrow, if_neg hgrow]
      have hblock := h.block sbf hsbf
      exact boundedKeep_eq max data isSend outs h.nonneg hleft (by omega)

/-- The direct send copies nothing, and what is behind it is checked as before. -/
theorem boundedDirect_eq {c : SendConn} (h : CapOk c.buff) (max : Int) (alloc : Option Mem)
    (data : Mem) (len : Int) (isSend : Bool) (outs : List SendRes) :
    boundedDirect max alloc c data len isSend outs =
      some (sendDirect max alloc c data len isSend outs) := by
  unfold boundedDirect sendDirect
  by_cases hzero : c.buff.slen = 0
  swap
  · rw [if_neg hzero, if_neg hzero]
    exact boundedRest_eq h max alloc data len 0 isSend outs
  rw [if_pos hzero, if_pos hzero]
  cases safeTcpSendN len outs with
  | error e => rfl
  | ok s =>
    simp only
    by_cases hfail : s.ret = -1
    · rw [if_pos hfail, if_pos hfail]
    · rw [if_neg hfail, if_neg hfail]
      exact boundedRest_eq (c := c.take data s.taken) h max alloc data len s.ret isSend s.rest

/-- `do_fd_write` keeps the order. -/
theorem doFdWrite_capOk {c c' : SendConn} {r : Int} {outs rest : List SendRes}
    (h : CapOk c.buff) (hwrite : doFdWrite c outs = .ok (r, c', rest)) : CapOk c'.buff := by
  rcases doFdWrite_cases hwrite with
    ⟨s, _, _, _, _, ⟨_, _, rfl⟩ | ⟨sbf, hsbf, ⟨_, hless, rfl⟩ | ⟨_, rfl⟩⟩⟩
  · exact h
  · have hfill := h.fill
    refine ⟨?_, ?_, fun b hb => ?_, fun hnone => by cases hnone⟩
    · simp only
      omega
    · simp only
      omega
    · cases hb
      exact h.block sbf hsbf
  · exact h

/-- `do_fd_send` copies inside the block. -/
theorem boundedSend_eq {c : SendConn} (h : CapOk c.buff) (max : Int) (alloc : Option Mem)
    (data : Mem) (len : Int) (outs : List SendRes) :
    boundedSend max alloc c data len outs = some (doFdSend max alloc c data len outs) := by
  unfold boundedSend doFdSend
  by_cases hpos : 0 < c.buff.slen
  swap
  · rw [if_neg hpos, if_neg hpos]
    exact boundedDirect_eq h max alloc data len false outs
  rw [if_pos hpos, if_pos hpos, boundedWrite_eq h, Option.bind_some]
  cases hwrite : doFdWrite c outs with
  | error e => rfl
  | ok out =>
    rcases out with ⟨r, c₁, rest⟩
    simp only
    by_cases hfail : r = -1
    · rw [if_pos hfail, if_pos hfail]
    · rw [if_neg hfail, if_neg hfail]
      exact boundedDirect_eq (doFdWrite_capOk h hwrite) max alloc data len true rest

/-- Putting what is left behind what waits keeps the order, and the limit. -/
theorem sendKeep_capOk {max : Int} {c c' : SendConn} {sbf : HeapBlk} {data : Mem} {len n r : Int}
    {isSend : Bool} {outs rest : List SendRes} (hlo : 0 ≤ c.buff.slen) (hleft : n < len)
    (hroom : c.buff.slen + (len - n) ≤ c.buff.sbfSize) (hblock : c.buff.sbfSize ≤ sbf.size)
    (h : sendKeep max c sbf data len n isSend outs = .ok (r, c', rest)) :
    CapOk c'.buff ∧ (r = 0 → 0 < max → c'.buff.slen ≤ max) := by
  unfold sendKeep at h
  simp only at h
  split at h
  · cases h
    exact ⟨capOk_empty, fun hr => by cases hr⟩
  · next hfits =>
    cases h
    rw [sendEvents_buff]
    refine ⟨⟨?_, hroom, fun b hb => ?_, fun hnone => by cases hnone⟩, fun _ hmax => ?_⟩
    · simp only
      omega
    · cases hb
      exact hblock
    · simp only at hfits ⊢
      omega

/-- The end of `do_fd_send` keeps the order and the limit; a connection on which nothing
waits is within any limit. -/
theorem sendRest_capOk {max : Int} {fresh : Mem} {c c' : SendConn} {data : Mem} {len n r : Int}
    {isSend : Bool} {outs rest : List SendRes} (h : CapOk c.buff)
    (hn : len ≤ n → c.buff.slen = 0)
    (hrest : sendRest max (some fresh) c data len n isSend outs = .ok (r, c', rest)) :
    CapOk c'.buff ∧ (r = 0 → 0 < max → c'.buff.slen ≤ max) := by
  have hlo := h.nonneg
  unfold sendRest at hrest
  by_cases hleft : n < len
  swap
  · rw [if_neg hleft] at hrest
    cases hrest
    rw [sendEvents_buff, hn (by omega)]
    exact ⟨h, fun _ hmax => by omega⟩
  rw [if_pos hleft] at hrest
  cases hsbf : c.buff.sbf with
  | none =>
    -- the block is there, and `sbf_size` is still zero
    rw [hsbf] at hrest
    cases hrest
    rcases h.null hsbf with ⟨_, hsize⟩
    refine ⟨⟨hlo, h.fill, fun b hb => ?_, fun hnone => by cases hnone⟩, fun hr => by cases hr⟩
    cases hb
    simp only
    omega
  | some sbf =>
    rw [hsbf] at hrest
    simp only at hrest
    by_cases hgrow : c.buff.sbfSize < c.buff.slen + (len - n)
    · rw [if_pos hgrow] at hrest
      refine sendKeep_capOk ?_ hleft ?_ ?_ hrest
      · exact hlo
      · simp only
        omega
      · simp only
        omega
    · rw [if_neg hgrow] at hrest
      exact sendKeep_capOk hlo hleft (by omega) (h.block sbf hsbf) hrest

/-- `do_fd_send` keeps the order and the limit. -/
theorem doFdSend_capOk {max : Int} {fresh : Mem} {c c' : SendConn} {data : Mem} {len r : Int}
    {outs rest : List SendRes} (h : CapOk c.buff) (hlen : 0 < len)
    (hsend : doFdSend max (some fresh) c data len outs = .ok (r, c', rest)) :
    CapOk c'.buff ∧ (r = 0 → 0 < max → c'.buff.slen ≤ max) := by
  have hclosed : ∀ {d : SendConn},
      CapOk d.close.buff ∧ (r = 0 → 0 < max → d.close.buff.slen ≤ max) :=
    ⟨capOk_empty, fun _ hmax => Int.le_of_lt hmax⟩
  rcases doFdSend_cases hsend with
    ⟨_, r₁, c₁, rest₁, hwrite, ⟨_, _, _, rfl⟩ | ⟨_, hrest⟩⟩ |
    ⟨hzero, _, s, _, ⟨_, _, _, rfl⟩ | ⟨_, hrest⟩⟩ | ⟨hneg, _⟩
  · exact hclosed
  · exact sendRest_capOk (doFdWrite_capOk h hwrite) (by omega) hrest
  · exact hclosed
  · exact sendRest_capOk (c := c.take data s.taken) h (fun _ => hzero) hrest
  · have hlo := h.nonneg
    omega

/-! ## The result -/

/-- A call that leaves a connection has returned. -/
theorem SendOut.conn_some {out : SendOut} {c : SendConn} (h : out.conn = some c) :
    ∃ r rest, out = .ok (r, c, rest) := by
  cases out with
  | error e => cases h
  | ok out =>
    rcases out with ⟨r, c', rest⟩
    cases h
    exact ⟨r, rest, rfl⟩

/-- Every call keeps the order. -/
theorem capStep_capOk {max : Int} {l : CapLbl} {c c' : SendConn} (h : CapOk c.buff)
    (hstep : capStep max l c = some c') : CapOk c'.buff := by
  cases l with
  | add ctl =>
    cases hstep
    cases ctl with
    | true => exact capOk_empty
    | false => exact h
  | send data len fresh outs =>
    simp only [capStep] at hstep
    by_cases hlen : 0 < len
    · rw [if_pos hlen] at hstep
      rcases SendOut.conn_some hstep with ⟨r, rest, hsend⟩
      exact (doFdSend_capOk h hlen hsend).1
    · rw [if_neg hlen] at hstep
      cases hstep
  | write outs =>
    rcases SendOut.conn_some hstep with ⟨r, rest, hwrite⟩
    exact doFdWrite_capOk h hwrite
  | close =>
    cases hstep
    cases c.registered with
    | true => exact capOk_empty
    | false => exact h

/-- While the numbers are in order, every call copies inside the block. -/
theorem CapOk.copiesInside {max : Int} {c : SendConn} (h : CapOk c.buff) (l : CapLbl) :
    CopiesInside max l c := by
  cases l with
  | add ctl => trivial
  | send data len fresh outs =>
    intro hnone
    cases (boundedSend_eq h max (some fresh) data len outs).symm.trans hnone
  | write outs =>
    intro hnone
    cases (boundedWrite_eq h outs).symm.trans hnone
  | close => trivial

/-- **Capacity.** In every state of a run from an entry of the zeroed table, fill level,
capacity and block are in order, whatever call comes next copies inside the block, and a
`do_fd_send` of at least one byte that returns `0` keeps the limit. -/
theorem capacity_in_order (max : Int) (ls : List CapLbl) :
    Throughout (capStep max)
      (fun c => CapOk c.buff ∧ ∀ l, CopiesInside max l c ∧ LimitKept max l c) ls capInit := by
  have hgood : ∀ c : SendConn, CapOk c.buff →
      CapOk c.buff ∧ ∀ l, CopiesInside max l c ∧ LimitKept max l c := by
    intro c h
    refine ⟨h, fun l => ⟨h.copiesInside l, ?_⟩⟩
    cases l with
    | send data len fresh outs =>
      intro hlen c' rest hsend
      exact (doFdSend_capOk h hlen hsend).2 rfl
    | add ctl => trivial
    | write outs => trivial
    | close => trivial
  refine (throughout_iff_along (C := fun _ _ => True) (fun c => CapOk c.buff) hgood ?_
    capOk_empty).mpr (along_of_forall (fun _ _ => trivial) _)
  intro l c c' h hstep
  exact Or.inl ⟨trivial, capStep_capOk h hstep⟩

end SServer.Net
