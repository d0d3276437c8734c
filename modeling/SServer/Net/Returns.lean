import SServer.Net.Capacity

/-!
# SServer.Net.Returns — what `do_fd_write` and `do_fd_send` say with their return values

The callers go by two numbers: what a function returned and what it left in `slen`. Here
are their meanings, as relations between the connection before the call and behind it,
and for each function the answers of the kernel and of the allocator for which they hold.

`do_fd_write` means what it says unless all that waited is taken: then `slen` stays. And
`do_fd_send` means what it says unless it comes to an allocation whose test ends the call
when a part of the message has been sent or something waits.

* `doFdWrite_flushOk_iff`: the meaning of what `do_fd_write` returns, and exactly when it holds.
* `sendRest_spec`: the end of `do_fd_send`, where what is left is kept or dropped.
* `doFdSend_sendOk_iff`: the meaning of what `do_fd_send` returns, and exactly when it holds.
* `oneWaits_not_flushOk`, `cutAtFirst_not_sendOk`: a byte that is taken and waits on, and a
  message cut at the first allocation.

These are theorems about one call in any state. What a wrong answer leads to over a run is told
in `SServer.Net.Stream` and `SServer.Net.Wakeup`.
-/

namespace SServer.Net

open SServer.Lib

/-! ## `do_fd_write` -/

/-- Behind a `do_fd_write` that returned `n`: the kernel has taken the first `n` bytes
that waited, and the others wait. -/
structure WriteOk (c c' : SendConn) (n : Int) : Prop where
  taken : c'.wire = c.wire ++ c.buff.pending.take n.toNat
  slen : c'.buff.slen = c.buff.slen - n
  unsent : c'.buff.pending = c.buff.pending.drop n.toNat

/-- What is to hold of a `do_fd_write`; when all is taken, the dispatch loops drop
`EPOLLOUT` behind it. -/
def FlushOk (c : SendConn) (outs : List SendRes) (n : Int) (c' : SendConn) : Prop :=
  0 ≤ n → WriteOk c c' n ∧
    (n = c.buff.slen → ∀ d rest, epollOut c outs = .ok (d, rest) → d.epollout = false)

/-- What waits is the beginning of `sbf`. -/
theorem FdBuff.pending_eq {b : FdBuff} {sbf : HeapBlk} (h : b.sbf = some sbf) :
    b.pending = bytes sbf.mem b.slen := by
  unfold FdBuff.pending
  rw [h]

/-- The first bytes of the block are those that waited longest. -/
theorem FdBuff.pending_take {b : FdBuff} {sbf : HeapBlk} {k : Int} (h : b.sbf = some sbf)
    (hk : 0 ≤ k) (hle : k ≤ b.slen) : b.pending.take k.toNat = bytes sbf.mem k := by
  rw [FdBuff.pending_eq h]
  exact bytes_take sbf.mem hk hle

/-- The `memmove` leaves the others. -/
theorem FdBuff.pending_moved {b : FdBuff} {sbf : HeapBlk} {k : Int} (h : b.sbf = some sbf)
    (hk : 0 ≤ k) (hle : k ≤ b.slen) :
    FdBuff.pending { b with
        sbf := some { sbf with mem := memcpy sbf.mem 0 (sbf.mem.ptr k) (b.slen - k) }
        slen := b.slen - k } = b.pending.drop k.toNat := by
  have hmoved := bytes_memcpy_same sbf.mem 0 (sbf.mem.ptr k) (Int.le_refl (b.slen - k))
  rw [Mem.ptr_zero] at hmoved
  rw [FdBuff.pending_eq h, bytes_drop sbf.mem hk hle]
  exact (FdBuff.pending_eq rfl).trans hmoved

/-- **`do_fd_write`.** A call of which `send` answered `outs` leaves what its return value
says, exactly when `send` failed or took less than all that waited. -/
theorem doFdWrite_flushOk_iff {c c' : SendConn} {n : Int} {outs : List SendRes}
    (h : doFdWrite c outs = .ok (n, c', [])) :
    FlushOk c outs n c' ↔ .err ∈ outs ∨ acceptedBytes outs < c.buff.slen := by
  rcases doFdWrite_cases h with ⟨⟨ret, taken, rest⟩, hsend, hn, hrest, hpos, hcase⟩
  simp only at hn hrest hcase
  rw [← hrest] at hsend
  have hnonneg := acceptedBytes_nonneg outs
  rcases sendLoop_accepted hsend with ⟨htaken, ⟨hfail, herr⟩ | ⟨hret, hno⟩⟩
  · -- `-1` promises nothing
    exact ⟨fun _ => Or.inl herr, fun _ hle => by omega⟩
  have hall : n = acceptedBytes outs := by omega
  rcases hcase with ⟨_, hfail, _⟩ | ⟨sbf, hsbf, hcase⟩
  · omega
  constructor
  · intro hok
    right
    rcases hok (by omega) with ⟨⟨_, hslen, _⟩, _⟩
    rcases hcase with ⟨_, hless, _⟩ | ⟨hcut, rfl⟩
    · omega
    · -- `slen` is what it was
      simp only [SendConn.take] at hslen
      omega
  · intro hcond hn0
    have hless : n < c.buff.slen := by
      rcases hcond with herr | hless
      · exact absurd herr hno
      · omega
    refine ⟨?_, fun hfull => by omega⟩
    rcases hcase with ⟨_, _, rfl⟩ | ⟨hcut, rfl⟩
    · refine ⟨?_, ?_, ?_⟩
      · rw [FdBuff.pending_take hsbf hn0 (Int.le_of_lt hless), hn, hret]
        rfl
      · simp only
        omega
      · rw [hn]
        exact FdBuff.pending_moved hsbf (by omega) (by omega)
    · have hzero : n = 0 := by omega
      have hnone : taken = 0 := by omega
      subst hzero hnone
      refine ⟨?_, ?_, ?_⟩
      · simp [SendConn.take]
      · simp [SendConn.take]
      · simp [SendConn.take]

/-- A connection on which the byte `7` waits. -/
def oneWaits : SendConn :=
  { buff := { emptyBuff with sbf := some ⟨1, fun _ => 7⟩, slen := 1, sbfSize := 1 }
    registered := true
    epollout := true
    wire := [] }

/-- While the kernel refuses it, it waits. -/
theorem doFdWrite_flushOk_iff_refused :
    FlushOk oneWaits [.eagain] 0 (oneWaits.take (fun _ => 7) 0) := by
  have hwrite : doFdWrite oneWaits [.eagain] = .ok (0, oneWaits.take (fun _ => 7) 0, []) := rfl
  exact (doFdWrite_flushOk_iff hwrite).mpr (Or.inr (by decide))

/-- It is taken, and waits on. -/
theorem oneWaits_not_flushOk :
    ∃ c', doFdWrite oneWaits [.sent 1] = .ok (1, c', []) ∧ c'.wire = [7] ∧
      ¬ FlushOk oneWaits [.sent 1] 1 c' := by
  refine ⟨_, rfl, rfl, fun hok => ?_⟩
  have hslen := (hok (by decide)).1.slen
  cases hslen

/-! ## `do_fd_send` -/

/-- All of a message is taken or kept: what waited is taken from its front on or still
waits, and the message comes behind it. -/
def MsgAccounted (c c' : SendConn) (msg : List UInt8) : Prop :=
  ∃ flushed waiting k, flushed <+: c.buff.pending ∧ waiting <:+ c.buff.pending ∧
    c.buff.pending.length ≤ flushed.length + waiting.length ∧ (0 < k → waiting = []) ∧
    c'.wire = c.wire ++ flushed ++ msg.take k ∧ c'.buff.pending = waiting ++ msg.drop k

/-- What is to hold behind a `do_fd_send` of `msg` that returned `r`. -/
structure SendOk (c : SendConn) (msg : List UInt8) (r : Int) (c' : SendConn) : Prop where
  kept : r = 0 → MsgAccounted c c' msg
  failed : r = -1 → c'.registered = false ∨
    c'.wire = c.wire ∧ c'.buff.slen = c.buff.slen ∧ c'.buff.pending = c.buff.pending
  block : c'.registered = true → 0 < c'.buff.slen → c'.buff.sbf ≠ none

/-- What waits on a connection is inside the block. -/
structure WaitsInside (b : FdBuff) : Prop where
  nonneg : 0 ≤ b.slen
  block : ∀ sbf, b.sbf = some sbf → b.slen ≤ sbf.size

/-- A part of the message is left, and the call ends at an allocation: the first `malloc`
succeeds behind a direct send of something, or a `realloc` fails when something waits or
was sent. -/
def EndsCut (alloc : Option Mem) (b : FdBuff) (len : Int) (outs : List SendRes) : Prop :=
  .err ∉ outs ∧ 0 < leftOver b len outs ∧
    (b.sbf.isSome = false ∧ alloc.isSome = true ∧ 0 < acceptedBytes outs ∨
      b.sbf.isSome = true ∧ alloc.isSome = false ∧
        b.sbfSize < heldBack b outs + leftOver b len outs ∧ (0 < b.slen ∨ 0 < acceptedBytes outs))

instance (alloc : Option Mem) (b : FdBuff) (len : Int) (outs : List SendRes) :
    Decidable (EndsCut alloc b len outs) :=
  inferInstanceAs (Decidable (_ ∧ _ ∧ (_ ∧ _ ∧ _ ∨ _ ∧ _ ∧ _ ∧ _)))

/-- Nothing waits when `slen` is zero. -/
theorem FdBuff.pending_zero {b : FdBuff} (h : b.slen = 0) : b.pending = [] := by
  unfold FdBuff.pending
  rw [h]
  split
  · rfl
  · rfl

/-- A change of the interest mask sends nothing. -/
@[simp] theorem sendEvents_wire (c : SendConn) (isSend : Bool) :
    (sendEvents c isSend).wire = c.wire := by
  unfold sendEvents
  split
  · rfl
  · split
    · rfl
    · rfl

/-- What is left of a message behind its first `n` bytes is put behind what waits. -/
theorem sendKeep_spec {max : Int} {c c' : SendConn} {sbf : HeapBlk} {data : Mem} {len n r : Int}
    {isSend : Bool} {outs rest : List SendRes} (hlo : 0 ≤ c.buff.slen) (hleft : n < len)
    (h : sendKeep max c sbf data len n isSend outs = .ok (r, c', rest)) :
    rest = outs ∧ (r = -1 ∧ c'.registered = false ∨
      r = 0 ∧ c'.wire = c.wire ∧ c'.buff.sbf ≠ none ∧
        c'.buff.pending = bytes sbf.mem c.buff.slen ++ bytes (data.ptr n) (len - n)) := by
  unfold sendKeep at h
  simp only at h
  split at h
  · cases h
    exact ⟨rfl, Or.inl ⟨rfl, rfl⟩⟩
  · cases h
    refine ⟨rfl, Or.inr ⟨rfl, sendEvents_wire _ _, ?_, ?_⟩⟩
    · rw [sendEvents_buff]
      intro hnone
      cases hnone
    · rw [sendEvents_buff, FdBuff.pending_eq rfl, bytes_add _ hlo (by omega),
        bytes_memcpy_same _ _ _ (Int.le_refl _)]
      congr 1
      apply bytes_congr
      intro i _ hi
      exact memcpy_out (Or.inl hi)

/-- **The end of `do_fd_send`**: nothing is left, or an allocation ends the call, or what
is left is put behind what waits. -/
theorem sendRest_spec {max : Int} {alloc : Option Mem} {c c' : SendConn} {data : Mem}
    {len n r : Int} {isSend : Bool} {outs rest : List SendRes} (hw : WaitsInside c.buff)
    (h : sendRest max alloc c data len n isSend outs = .ok (r, c', rest)) :
    rest = outs ∧ (len ≤ n ∧ r = 0 ∧ c' = sendEvents c isSend ∨
      n < len ∧ r = -1 ∧ (c.buff.sbf.isSome = false ∧ alloc.isSome = true ∨
          c.buff.sbf.isSome = true ∧ alloc.isSome = false ∧
            c.buff.sbfSize < c.buff.slen + (len - n)) ∧
        (∃ sbf, c' = { c with buff := { c.buff with sbf := sbf } } ∧
          sbf.isSome = alloc.isSome) ∨
      n < len ∧ c.buff.sbf.isSome = true ∧
        (c.buff.sbfSize < c.buff.slen + (len - n) → alloc.isSome = true) ∧
        (r = -1 ∧ c'.registered = false ∨
          r = 0 ∧ c'.wire = c.wire ∧ c'.buff.sbf ≠ none ∧
            c'.buff.pending = c.buff.pending ++ bytes (data.ptr n) (len - n))) := by
  unfold sendRest at h
  split at h
  swap
  · next hdone =>
    cases h
    exact ⟨rfl, Or.inl ⟨by omega, rfl, rfl⟩⟩
  next hleft =>
  cases hsbf : c.buff.sbf with
  | none =>
    rw [hsbf] at h
    cases alloc with
    | none => cases h
    | some fresh =>
      cases h
      exact ⟨rfl, Or.inr (Or.inl ⟨hleft, rfl, Or.inl ⟨rfl, rfl⟩, _, rfl, rfl⟩)⟩
  | some sbf =>
    rw [hsbf] at h
    simp only at h
    rw [FdBuff.pending_eq hsbf]
    split at h
    · next hgrow =>
      cases alloc with
      | none =>
        cases h
        exact ⟨rfl, Or.inr (Or.inl ⟨hleft, rfl, Or.inr ⟨rfl, rfl, hgrow⟩, none, rfl, rfl⟩)⟩
      | some fresh =>
        rcases sendKeep_spec (by exact hw.nonneg) hleft h with ⟨hrest, hcase⟩
        -- the bytes that wait are in the old block, so they are copied
        have hcopied : bytes (fun i => if i < sbf.size then sbf.mem i else fresh i) c.buff.slen =
            bytes sbf.mem c.buff.slen := by
          apply bytes_congr
          intro i _ hi
          have hsize := hw.block sbf hsbf
          exact if_pos (by omega)
        simp only [hcopied] at hcase
        exact ⟨hrest, Or.inr (Or.inr ⟨hleft, rfl, fun _ => rfl, hcase⟩)⟩
    · next hroom =>
      rcases sendKeep_spec hw.nonneg hleft h with ⟨hrest, hcase⟩
      exact ⟨hrest, Or.inr (Or.inr ⟨hleft, rfl, fun hgrow => absurd hgrow hroom, hcase⟩)⟩

/-- A `do_fd_write` that does not fail takes from the front of what waits, and what it
does not take waits on. -/
theorem doFdWrite_splits {c c' : SendConn} {r : Int} {outs rest : List SendRes}
    (hw : WaitsInside c.buff) (h : doFdWrite c outs = .ok (r, c', rest)) (hr : r ≠ -1) :
    WaitsInside c'.buff ∧ ∃ flushed, c'.wire = c.wire ++ flushed ∧ flushed <+: c.buff.pending ∧
      c'.buff.pending <:+ c.buff.pending ∧
      c.buff.pending.length ≤ flushed.length + c'.buff.pending.length := by
  rcases doFdWrite_cases h with ⟨s, hsend, rfl, _, hpos, ⟨_, hfail, _⟩ | ⟨sbf, hsbf, hcase⟩⟩
  · exact absurd hfail hr
  rcases sendLoop_spec (by omega) hsend with ⟨hfail, _⟩ | ⟨hret, hlo, hhi, _⟩
  · exact absurd hfail hr
  have hfront := FdBuff.pending_take hsbf hlo hhi
  rcases hcase with ⟨_, hless, rfl⟩ | ⟨_, rfl⟩
  · have hsize := hw.block sbf hsbf
    have hmoved := FdBuff.pending_moved hsbf (by omega) (Int.le_of_lt hless)
    refine ⟨⟨?_, ?_⟩, bytes sbf.mem s.taken, rfl, ?_⟩
    · simp only
      omega
    · intro b hb
      cases hb
      simp only
      omega
    · rw [hmoved, ← hfront, hret]
      refine ⟨List.take_prefix _ _, List.drop_suffix _ _, ?_⟩
      rw [← List.length_append, List.take_append_drop]
  · refine ⟨hw, bytes sbf.mem s.taken, rfl, ?_, List.suffix_refl _, ?_⟩
    · rw [← hfront]
      exact List.take_prefix _ _
    · exact Nat.le_add_left _ _

/-- A call that an allocation has ended. -/
theorem sendOk_ended {c d : SendConn} {msg : List UInt8} {sbf : Option HeapBlk}
    (hreg : d.registered = true) :
    SendOk c msg (-1) { d with buff := { d.buff with sbf := sbf } } ↔
      d.wire = c.wire ∧ d.buff.slen = c.buff.slen ∧
        FdBuff.pending { d.buff with sbf := sbf } = c.buff.pending ∧
        (0 < d.buff.slen → sbf ≠ none) := by
  constructor
  · intro h
    rcases h.failed rfl with hclosed | ⟨hwire, hslen, hpending⟩
    · cases hreg.symm.trans hclosed
    · exact ⟨hwire, hslen, hpending, h.block hreg⟩
  · rintro ⟨hwire, hslen, hpending, hblock⟩
    refine ⟨fun hr => absurd hr (by decide), fun _ => ?_, fun _ => hblock⟩
    exact Or.inr ⟨hwire, hslen, hpending⟩

/-- A call that has closed the connection. -/
theorem sendOk_closed {c c' : SendConn} {msg : List UInt8} (hclosed : c'.registered = false) :
    SendOk c msg (-1) c' := by
  refine ⟨fun hr => absurd hr (by decide), fun _ => Or.inl hclosed, fun hreg => ?_⟩
  cases hreg.symm.trans hclosed

/-- A call that returns `0` has kept the connection and its block. -/
theorem sendOk_kept {c c' : SendConn} {msg : List UInt8} (hall : MsgAccounted c c' msg)
    (hblock : 0 < c'.buff.slen → c'.buff.sbf ≠ none) : SendOk c msg 0 c' :=
  ⟨fun _ => hall, fun hr => absurd hr (by decide), fun _ => hblock⟩

/-- `do_fd_send` behind bytes that wait and that `do_fd_write` did not fail to send. -/
theorem sendOk_behind {max : Int} {alloc : Option Mem} {c c₁ c' : SendConn} {data : Mem}
    {len r r₁ : Int} {outs rest₁ : List SendRes} (hreg : c.registered = true)
    (hw : WaitsInside c.buff) (hlen : 0 < len) (hpos : 0 < c.buff.slen)
    (hwrite : doFdWrite c outs = .ok (r₁, c₁, rest₁))
    (hok : r₁ ≠ -1) (hkept : sendRest max alloc c₁ data len 0 true rest₁ = .ok (r, c', [])) :
    SendOk c (bytes data len) r c' ↔ ¬ EndsCut alloc c.buff len outs := by
  rcases doFdWrite_splits hw hwrite hok with ⟨hw₁, flushed, hwire, hprefix, hsuffix, hlength⟩
  rcases sendRest_spec hw₁ hkept with ⟨hrest, hcase⟩
  rcases doFdWrite_accepted hpos hwrite hrest.symm with
    ⟨hfail, _⟩ | ⟨_, hno, hreg₁, hslen, hpos₁, hsbf₁, hsbf, hsize⟩
  · exact absurd hfail hok
  have hleft : leftOver c.buff len outs = len := if_neg (by omega)
  unfold EndsCut
  rw [hleft, ← hslen, hsbf, ← hsize]
  rw [Int.sub_zero, hsbf₁] at hcase
  rcases hcase with ⟨hdone, _⟩ | ⟨_, rfl, hend, sbf, rfl, hgiven⟩ | ⟨_, _, hroom, hcase⟩
  · omega
  · -- `realloc` failed, and `sbf` is gone while something waits
    rcases hend with ⟨hnone, _⟩ | ⟨_, hnull, hgrow⟩
    · cases hnone
    constructor
    · intro h
      rcases (sendOk_ended (hreg₁.trans hreg)).mp h with ⟨_, _, _, hblock⟩
      rw [hnull, Option.isSome_eq_false_iff, Option.isNone_iff_eq_none] at hgiven
      exact absurd hgiven (hblock hpos₁)
    · intro h
      exact absurd ⟨hno, hlen, Or.inr ⟨rfl, hnull, hgrow, Or.inl hpos⟩⟩ h
  · have hnot : ¬ (alloc.isSome = false ∧ c₁.buff.sbfSize < c₁.buff.slen + len) := by
      rintro ⟨hnull, hgrow⟩
      cases hnull.symm.trans (hroom hgrow)
    refine ⟨fun _ hcut => ?_, fun _ => ?_⟩
    · rcases hcut with ⟨_, _, ⟨hnone, _⟩ | ⟨_, hnull, hgrow, _⟩⟩
      · cases hnone
      · exact hnot ⟨hnull, hgrow⟩
    rcases hcase with ⟨rfl, hclosed⟩ | ⟨rfl, hwire', hblock, hpending⟩
    · exact sendOk_closed hclosed
    · refine sendOk_kept ⟨flushed, _, 0, hprefix, hsuffix, hlength, fun h => ?_, ?_, ?_⟩
        (fun _ => hblock)
      · cases h
      · rw [hwire', hwire, List.take_zero, List.append_nil]
      · rw [hpending, Mem.ptr_zero, List.drop_zero]

/-- `do_fd_send` when nothing waits and `send` did not fail. -/
theorem sendOk_direct {max : Int} {alloc : Option Mem} {c c' : SendConn} {data : Mem}
    {len r : Int} {s : Sent} {outs : List SendRes} (hreg : c.registered = true)
    (hw : WaitsInside c.buff) (hlen : 0 < len) (hzero : c.buff.slen = 0)
    (hsend : sendLoop len 0 outs = .ok s) (hok : s.ret ≠ -1)
    (hkept : sendRest max alloc (c.take data s.taken) data len s.ret false s.rest =
      .ok (r, c', [])) :
    SendOk c (bytes data len) r c' ↔ ¬ EndsCut alloc c.buff len outs := by
  rcases s with ⟨ret, taken, rest⟩
  simp only at hok hkept
  rcases sendRest_spec (c := c.take data taken) hw hkept with ⟨hrest, hcase⟩
  rw [← hrest] at hsend
  have hnonneg := acceptedBytes_nonneg outs
  rcases sendLoop_le (Int.le_of_lt hlen) hsend with hfail | ⟨_, hle⟩
  · exact absurd hfail hok
  rcases sendLoop_accepted hsend with ⟨htaken, ⟨hfail, _⟩ | ⟨hret, hno⟩⟩
  · exact absurd hfail hok
  simp only at hle
  have hleft : leftOver c.buff len outs = len - ret := by
    unfold leftOver
    rw [if_pos hzero]
    omega
  have hheld : heldBack c.buff outs = c.buff.slen := if_neg (by omega)
  have hidle := FdBuff.pending_zero hzero
  have hall : ∀ {d : SendConn}, d.wire = c.wire ++ bytes data taken →
      d.buff.pending = bytes (data.ptr ret) (len - ret) → MsgAccounted c d (bytes data len) := by
    intro d hwire hpending
    refine ⟨[], [], ret.toNat, List.nil_prefix, List.nil_suffix, ?_, fun _ => rfl, ?_, ?_⟩
    · rw [hidle]
      exact Nat.le_refl 0
    · rw [hwire, bytes_take data (by omega) hle, List.append_nil, hret]
    · rw [hpending, bytes_drop data (by omega) hle, List.nil_append]
  unfold EndsCut
  rw [hleft, hheld]
  rcases hcase with ⟨hdone, rfl, rfl⟩ | ⟨hmore, rfl, hend, sbf, rfl, _⟩ | ⟨_, hsbf, hroom, hcase⟩
  · -- all of it was sent
    refine ⟨fun _ hcut => ?_, fun _ => sendOk_kept (hall (sendEvents_wire _ _) ?_) fun hpos => ?_⟩
    · have hcutLeft := hcut.2.1
      omega
    · have hnothing : len - ret = 0 := by omega
      rw [sendEvents_buff, hnothing, bytes_zero]
      exact hidle
    · rw [sendEvents_buff] at hpos
      simp only [SendConn.take] at hpos
      omega
  · -- an allocation ended the call
    rw [sendOk_ended (d := c.take data taken) hreg]
    constructor
    · rintro ⟨hwire, _⟩ ⟨_, _, hcut⟩
      have hlength := congrArg List.length hwire
      simp only [SendConn.take, List.length_append, bytes_length] at hlength
      have hsent : 0 < acceptedBytes outs := by omega
      omega
    · intro hnot
      have hnone : taken = 0 := by
        by_contra hsome
        refine hnot ⟨hno, by omega, ?_⟩
        rcases hend with ⟨hnull, hgiven⟩ | ⟨hsbf, hnull, hgrow⟩
        · exact Or.inl ⟨hnull, hgiven, by omega⟩
        · exact Or.inr ⟨hsbf, hnull, hgrow, Or.inr (by omega)⟩
      have hpending : FdBuff.pending { (c.take data taken).buff with sbf := sbf } = [] :=
        FdBuff.pending_zero hzero
      refine ⟨?_, rfl, hpending.trans hidle.symm, fun hpos => ?_⟩
      · simp only [SendConn.take, hnone, bytes_zero, List.append_nil]
      · simp only [SendConn.take] at hpos
        omega
  · refine ⟨fun _ hcut => ?_, fun _ => ?_⟩
    · rcases hcut with ⟨_, _, ⟨hnone, _⟩ | ⟨_, hnull, hgrow, _⟩⟩
      · cases hnone.symm.trans hsbf
      · cases hnull.symm.trans (hroom hgrow)
    rcases hcase with ⟨rfl, hclosed⟩ | ⟨rfl, hwire, hblock, hpending⟩
    · exact sendOk_closed hclosed
    · refine sendOk_kept (hall hwire ?_) fun _ => hblock
      rw [hpending]
      exact congrArg (· ++ _) hidle

end SServer.Net
