import SServer.Lib.Run
import SServer.Net.Recv
import SServer.Queue.MemQueue

/-!
# SServer.Net.Framing — `handle_cli` and the lengths it trusts

`handle_cli` cuts what has been received into messages and pushes each to the
worker. How long a message is, `so.get_msg_len` says; nothing checks it. The
loop is modelled by its single pass (`framePass`), and a run takes one read or
one pass at a time with any answer of `get_msg_len`, on any queue.

The result: the blocks handed to `mq_push` are sound and `rlen` stays inside
the buffer in every state of a run, exactly when no pass of the run uses a
negative length, or a complete one that leaves no room for the block header in
an int. The lengths of `raw2blk` are added as 32-bit words.

* `framePass_cases`: a pass: nothing is complete, or a message is consumed, pushed or refused.
* `handleCli`: the read and the loop. `passBound` bounds the passes by the bytes read and by
  what the queue can hold, and `SServer.Net.ReadPath` shows that a ring never needs as many.
* `frameStep`: a run takes the passes one by one, so `frames_iff_good_lens` is about each of
  them.
* `frames_iff_good_lens`: the result.
* `negativeLen_not_frameOk`: a length below zero: the block pushed for it is shorter than its
  header.

`get_msg_len` belongs to the loaded object and may answer any int, and something else each time.
The payload of a block is what stood in the buffer; bytes behind `rlen` count as they are.
-/

namespace SServer.Net

open SServer.Lib SServer.Queue

/-! ## The loop -/

/-- `raw2blk`, for a slot with the worker index `idx`. -/
def raw2blk (fd idx : Int32) (buff : FdBuff) : MemBlock :=
  { id := idx
    fd := fd
    type := MemBlockType.blkData.code
    len := Int32.ofInt (buff.msglen + blkHeadLen) }

/-- `msglen` behind the first `if` of the loop: `v` is what `get_msg_len`
answers when it is asked. -/
def lenOf (v : Int32) (buff : FdBuff) : Int :=
  if buff.msglen = 0 ∧ 0 < buff.rlen then v.toInt else buff.msglen

/-- The buffer behind the first `if` of the loop. -/
def FdBuff.ask (buff : FdBuff) (v : Int32) : FdBuff := { buff with msglen := lenOf v buff }

/-- The buffer behind a message: `rlen -= msglen; msglen = 0`. -/
def FdBuff.consume (buff : FdBuff) : FdBuff :=
  { buff with rlen := intSub buff.rlen buff.msglen, msglen := 0 }

/-- Asking for a length takes no bytes. -/
@[simp] theorem ask_rlen (buff : FdBuff) (v : Int32) : (buff.ask v).rlen = buff.rlen := rfl
/-- It leaves the buffer where it is. -/
@[simp] theorem ask_rbf (buff : FdBuff) (v : Int32) : (buff.ask v).rbf = buff.rbf := rfl
/-- It leaves the length that the pass goes by. -/
@[simp] theorem ask_msglen (buff : FdBuff) (v : Int32) :
    (buff.ask v).msglen = lenOf v buff := rfl
/-- A message that is consumed leaves the buffer where it is. -/
@[simp] theorem consume_rbf (buff : FdBuff) : buff.consume.rbf = buff.rbf := rfl
/-- The next message has no length yet. -/
@[simp] theorem consume_msglen (buff : FdBuff) : buff.consume.msglen = 0 := rfl

/-- A complete message of a length that is not negative leaves what is behind it. -/
theorem consume_rlen {v : Int32} {buff : FdBuff} (h0 : 0 ≤ lenOf v buff)
    (hle : lenOf v buff ≤ buff.rlen) :
    (buff.ask v).consume.rlen = buff.rlen - lenOf v buff := intSub_of_le h0 hle

/-- The length that a pass goes by is an int. -/
theorem lenOf_range (v : Int32) {buff : FdBuff}
    (hmsg : -2 ^ 31 ≤ buff.msglen ∧ buff.msglen < 2 ^ 31) :
    -2 ^ 31 ≤ lenOf v buff ∧ lenOf v buff < 2 ^ 31 := by
  unfold lenOf
  by_cases hask : buff.msglen = 0 ∧ 0 < buff.rlen
  · rw [if_pos hask]
    exact ⟨v.le_toInt, v.toInt_lt⟩
  · rw [if_neg hask]
    exact hmsg

/-- Ints stay ints, whatever is answered for the length. -/
theorem FdBuff.Ints.consume {buff : FdBuff} (h : buff.Ints) (v : Int32) :
    (buff.ask v).consume.Ints := ⟨intSub_int h.rlen.2, by simp⟩

/-- A complete message takes bytes that were received exactly when its length is positive. -/
theorem consume_less_iff {buff : FdBuff} (h : buff.Ints) (h0 : 0 ≤ buff.rlen) {v : Int32}
    (hle : lenOf v buff ≤ buff.rlen) :
    0 ≤ (buff.ask v).consume.rlen ∧ (buff.ask v).consume.rlen < buff.rlen ↔ 0 < lenOf v buff :=
  intSub_less_iff h0 h.rlen.2 (lenOf_range v h.msglen).1 hle

/-- Move what is left in front of the buffer. -/
def keepRest (buff : FdBuff) (tmp : Int) : FdBuff :=
  if tmp ≠ 0 ∧ 0 < buff.rlen then
    { buff with rbf := .mapped (memcpy buff.rbf.mem 0 (buff.rbf.mem.ptr tmp) buff.rlen) }
  else buff

/-- How a pass ends: at `goto push_again`, at `return 0`, at `return -1`, or
inside an `mq_push` that does not return. -/
inductive Pass (Q : Type) where
  | again (buff : FdBuff) (tmp : Int) (q : Q)
  | done (buff : FdBuff) (q : Q)
  | failed (buff : FdBuff) (q : Q)
  | crashed

/-- A queue's `mq_push`. -/
abbrev Push (Q : Type) := Q → MemBlock → Mem → Option (Int × Q)

variable {Q : Type}

/-- One pass of `handle_cli` from the label `push_again`; `tmp` is the offset of
`tmp_ptr` in `rbf`. -/
def framePass (push : Push Q) (fd idx v : Int32) (buff : FdBuff) (tmp : Int) (q : Q) : Pass Q :=
  let buff := buff.ask v
  if buff.msglen ≤ buff.rlen then
    match push q (raw2blk fd idx buff) (buff.rbf.mem.ptr tmp) with
    | none => .crashed
    | some (r, q) =>
      if r ≠ 0 then .failed buff q
      else
        let tmp := tmp + buff.msglen
        if 0 < buff.consume.rlen then .again buff.consume tmp q
        else .done (keepRest buff.consume tmp) q
  else .done (keepRest buff tmp) q

/-- More passes than a call of either handler makes before it returns: a pass uses up a
byte, or, in the master, pushes a block to a queue whose length is an int. -/
def passBound (buff : FdBuff) : Nat := buff.rlen.toNat + 2 ^ 31

/-- The bytes of the buffer alone stay below the bound on the passes. -/
theorem rlen_lt_passBound (buff : FdBuff) : buff.rlen < passBound buff := by
  unfold passBound
  omega

/-- The loop of `handle_cli` with `so.get_msg_len` as `get`, bounded by a count
of passes; `none` when it does not end within them or is caught in `mq_push`. -/
def frameLoop (push : Push Q) (get : Mem → Int → Int32) (fd idx : Int32) :
    Nat → FdBuff → Int → Q → Option (Int × FdBuff × Q)
  | 0, _, _, _ => none
  | n + 1, buff, tmp, q =>
    match framePass push fd idx (get (buff.rbf.mem.ptr tmp) buff.rlen) buff tmp q with
    | .again buff tmp q => frameLoop push get fd idx n buff tmp q
    | .done buff q => some (0, buff, q)
    | .failed buff q => some (-1, buff, q)
    | .crashed => none

/-- `handle_cli`. A pass that goes by the length zero consumes nothing and pushes an empty
block, so such a call goes on until `mq_push` refuses one, and returns `-1`. -/
def handleCli (push : Push Q) (get : Mem → Int → Int32) (max : Int) (fd idx : Int32)
    (mapped : Bool) (outs : List RecvRes) (c : RecvConn) (q : Q) : Option (Int × RecvConn × Q) :=
  match handleRead max mapped c outs with
  | .error _ => none
  | .ok (r, c, _) =>
    if r = -1 then some (-1, c, q)
    else
      match frameLoop push get fd idx (passBound c.buff) c.buff 0 q with
      | none => none
      | some (r, buff, q) => some (r, { c with buff := buff }, q)

/-- `handle_cli` on bytes that arrive and find room is the loop on them. -/
theorem handleCli_fits (push : Push Q) (get : Mem → Int → Int32) {max : Int} (fd idx : Int32)
    {c : RecvConn} (q : Q) {chunk : List UInt8} (hne : chunk ≠ []) (h0 : 0 ≤ c.buff.rlen)
    (hfit : c.buff.rlen + chunk.length ≤ max)
    (hmap : (∃ mem, c.buff.rbf = .mapped mem) ∨
      c.buff.rbf = .null ∧ c.buff.rlen = 0 ∧ c.buff.msglen = 0) :
    ∃ c' : RecvConn, c'.buff.rlen = c.buff.rlen + chunk.length ∧
      c'.buff.msglen = c.buff.msglen ∧
      c'.buff.rbf = .mapped
        (memcpy c.buff.rbf.mem c.buff.rlen (ofBytes chunk) chunk.length) ∧
      handleCli push get max fd idx true [.data chunk, .eagain] c q =
        (frameLoop push get fd idx (passBound c'.buff) c'.buff 0 q).map
          fun (r, buff, q) => (r, { c' with buff := buff }, q) := by
  rcases handleRead_fits hne h0 hfit hmap with ⟨c', rest, hread, hrlen, hmsg, hrbf⟩
  refine ⟨c', hrlen, hmsg, hrbf, ?_⟩
  unfold handleCli
  rw [hread]
  simp only
  rw [if_neg (by omega)]
  cases frameLoop push get fd idx (passBound c'.buff) c'.buff 0 q with
  | none => rfl
  | some out => rfl

/-! ## Runs -/

/-- A call of `mq_push`: its block, where its payload starts in `rbf`, and
`msglen` and `rlen` at that moment. -/
structure PushCall where
  blk : MemBlock
  tmp : Int
  msglen : Int
  rlen : Int

/-- Where the master is with a client: between two calls of `handle_cli`, at
`push_again`, or at the end of the connection or of the process. -/
inductive FramePhase where
  | idle
  | framing (tmp : Int)
  | closed
  | crashed
deriving DecidableEq

/-- A client connection, its queue and the calls of `mq_push` so far. -/
structure FrameSt (Q : Type) where
  conn : RecvConn
  phase : FramePhase
  q : Q
  calls : List PushCall

/-- A connection just accepted. -/
def frameInit (q : Q) : FrameSt Q := { conn := recvInit, phase := .idle, q := q, calls := [] }

/-- A call of `handle_cli` up to the loop, with what `mmap` and `recv` answer,
or a pass of the loop, with what `get_msg_len` answers. -/
inductive FrameLbl where
  | read (mapped : Bool) (outs : List RecvRes)
  | pass (v : Int32)

/-- The call of `mq_push` that a pass makes. -/
def passCall (fd idx v : Int32) (buff : FdBuff) (tmp : Int) : List PushCall :=
  let buff := buff.ask v
  if buff.msglen ≤ buff.rlen then [⟨raw2blk fd idx buff, tmp, buff.msglen, buff.rlen⟩] else []

/-- One read or one pass. -/
def frameStep (push : Push Q) (max : Int) (fd idx : Int32) :
    FrameLbl → FrameSt Q → Option (FrameSt Q)
  | .read mapped outs, s =>
    match s.phase with
    | .idle =>
      match handleRead max mapped s.conn outs with
      | .error _ => none
      | .ok (r, c, _) =>
        some { s with conn := c, phase := if r = -1 then .closed else .framing 0 }
    | _ => none
  | .pass v, s =>
    match s.phase with
    | .framing tmp =>
      let calls := s.calls ++ passCall fd idx v s.conn.buff tmp
      match framePass push fd idx v s.conn.buff tmp s.q with
      | .again buff tmp q =>
        some { conn := { s.conn with buff := buff }, phase := .framing tmp, q := q, calls := calls }
      | .done buff q =>
        some { conn := { s.conn with buff := buff }, phase := .idle, q := q, calls := calls }
      | .failed buff q =>
        some { conn := { s.conn with buff := buff }, phase := .closed, q := q, calls := calls }
      | .crashed => some { s with phase := .crashed, calls := calls }
    | _ => none

/-! ## What is to hold -/

/-- The block is at least a header long, and the payload `mq_push` copies are
`msglen` bytes of the `rlen` received and not consumed ones. -/
def PushCall.Ok (max : Int) (c : PushCall) : Prop :=
  blkHeadLen ≤ c.blk.len.toInt ∧ c.blk.len.toInt - blkHeadLen = c.msglen ∧ c.msglen ≤ c.rlen ∧
    0 ≤ c.tmp ∧ c.tmp + c.rlen ≤ max

/-- All calls of `mq_push` are sound, and `rlen` is inside the buffer. -/
def FrameOk (max : Int) (s : FrameSt Q) : Prop :=
  (∀ c ∈ s.calls, c.Ok max) ∧ 0 ≤ s.conn.buff.rlen ∧ s.conn.buff.rlen ≤ max

/-- A length that a pass may use: not negative, and when the message is
complete, an int with the block header added. -/
def GoodLen (rlen m : Int) : Prop := 0 ≤ m ∧ (m ≤ rlen → m + blkHeadLen < 2 ^ 31)

/-- The condition on a step: the length a pass goes by is good. -/
def UsesGoodLen : FrameLbl → FrameSt Q → Prop
  | .read _ _, _ => True
  | .pass v, s => GoodLen s.conn.buff.rlen (lenOf v s.conn.buff)

instance (rlen m : Int) : Decidable (GoodLen rlen m) := inferInstanceAs (Decidable (_ ∧ (_ → _)))

instance : ∀ l s, Decidable (UsesGoodLen (Q := Q) l s)
  | .read _ _, _ => isTrue trivial
  | .pass v, s => inferInstanceAs (Decidable (GoodLen s.conn.buff.rlen (lenOf v s.conn.buff)))

/-! ## One pass -/

/-- The length of a block is that of its message and of a header, where this is an int. -/
theorem raw2blk_len_good (fd idx : Int32) {buff : FdBuff} (h0 : 0 ≤ buff.msglen)
    (hmax : buff.msglen + blkHeadLen < 2 ^ 31) :
    (raw2blk fd idx buff).len.toInt = buff.msglen + blkHeadLen := by
  simp only [blkHeadLen] at hmax
  unfold raw2blk
  exact Int32.toInt_ofInt_of_le (by simp only [blkHeadLen]; omega) hmax

/-- A length that is negative or too close to the largest int makes a block that
is shorter than its header. -/
theorem raw2blk_len_bad (fd idx : Int32) {buff : FdBuff} (hlo : -2 ^ 31 ≤ buff.msglen)
    (hhi : buff.msglen < 2 ^ 31)
    (hbad : buff.msglen < 0 ∨ 2 ^ 31 ≤ buff.msglen + blkHeadLen) :
    (raw2blk fd idx buff).len.toInt < blkHeadLen := by
  simp only [blkHeadLen] at hbad
  simp only [raw2blk, Int32.toInt_ofInt, Int32.size, Int.bmod_def, blkHeadLen]
  omega

/-- A pass that goes by a good length pushes a sound block. -/
theorem passCall_good {max : Int} {fd idx v : Int32} {buff : FdBuff} {tmp : Int}
    (hgood : GoodLen buff.rlen (lenOf v buff)) (htmp : 0 ≤ tmp) (hmax : tmp + buff.rlen ≤ max) :
    ∀ c ∈ passCall fd idx v buff tmp, c.Ok max := by
  intro c hc
  unfold passCall at hc
  by_cases hle : (buff.ask v).msglen ≤ (buff.ask v).rlen
  swap
  · rw [if_neg hle] at hc
    cases hc
  rw [if_pos hle] at hc
  cases List.mem_singleton.mp hc
  have hlen : (raw2blk fd idx (buff.ask v)).len.toInt = lenOf v buff + blkHeadLen :=
    raw2blk_len_good fd idx hgood.1 (hgood.2 hle)
  have h0 := hgood.1
  refine ⟨?_, ?_, hle, htmp, hmax⟩
  · simp only [hlen]
    omega
  · simp only [hlen, ask_msglen]
    omega

/-- One that goes by any other length pushes one that is not sound. -/
theorem passCall_bad {max : Int} (fd idx : Int32) {v : Int32} {buff : FdBuff} (tmp : Int)
    (hbad : ¬ GoodLen buff.rlen (lenOf v buff)) (h0 : 0 ≤ buff.rlen)
    (hlo : -2 ^ 31 ≤ lenOf v buff) (hhi : lenOf v buff < 2 ^ 31) :
    ∃ c ∈ passCall fd idx v buff tmp, ¬ c.Ok max := by
  have hcases : lenOf v buff ≤ buff.rlen ∧
      (lenOf v buff < 0 ∨ 2 ^ 31 ≤ lenOf v buff + blkHeadLen) := by
    by_contra hno
    refine hbad ⟨?_, fun hle => ?_⟩
    · by_contra hneg
      exact hno ⟨by omega, by omega⟩
    · by_contra hbig
      exact hno ⟨hle, by omega⟩
  have hle : (buff.ask v).msglen ≤ (buff.ask v).rlen := hcases.1
  unfold passCall
  rw [if_pos hle]
  refine ⟨_, List.mem_singleton.mpr rfl, fun hok => ?_⟩
  have hshort : (raw2blk fd idx (buff.ask v)).len.toInt < blkHeadLen :=
    raw2blk_len_bad fd idx hlo hhi hcases.2
  have hlong := hok.1
  simp only at hlong
  omega

/-- Moving the rest to the front loses no bytes. -/
@[simp] theorem keepRest_rlen (buff : FdBuff) (tmp : Int) :
    (keepRest buff tmp).rlen = buff.rlen := by
  unfold keepRest
  split <;> rfl

/-- The length that is known stays known. -/
@[simp] theorem keepRest_msglen (buff : FdBuff) (tmp : Int) :
    (keepRest buff tmp).msglen = buff.msglen := by
  unfold keepRest
  split <;> rfl

/-- All that a pass can do: wait for more, be caught in `mq_push`, be refused
by it, or push a message and go on or stop. -/
theorem framePass_cases (push : Push Q) (fd idx v : Int32) (buff : FdBuff) (tmp : Int) (q : Q) :
    buff.rlen < lenOf v buff ∧
        framePass push fd idx v buff tmp q = .done (keepRest (buff.ask v) tmp) q ∨
      lenOf v buff ≤ buff.rlen ∧
        (push q (raw2blk fd idx (buff.ask v)) (buff.rbf.mem.ptr tmp) = none ∧
            framePass push fd idx v buff tmp q = .crashed ∨
          (∃ r q', push q (raw2blk fd idx (buff.ask v)) (buff.rbf.mem.ptr tmp) = some (r, q') ∧
            r ≠ 0 ∧ framePass push fd idx v buff tmp q = .failed (buff.ask v) q') ∨
          ∃ q', push q (raw2blk fd idx (buff.ask v)) (buff.rbf.mem.ptr tmp) = some (0, q') ∧
            (0 < (buff.ask v).consume.rlen ∧ framePass push fd idx v buff tmp q =
                .again (buff.ask v).consume (tmp + lenOf v buff) q' ∨
              (buff.ask v).consume.rlen ≤ 0 ∧ framePass push fd idx v buff tmp q =
                .done (buff.ask v).consume q')) := by
  unfold framePass
  by_cases hle : (buff.ask v).msglen ≤ (buff.ask v).rlen
  swap
  · rw [if_neg hle]
    rw [ask_msglen, ask_rlen] at hle
    exact Or.inl ⟨by omega, rfl⟩
  rw [if_pos hle, ask_rbf]
  refine Or.inr ⟨hle, ?_⟩
  cases hpush : push q (raw2blk fd idx (buff.ask v)) (buff.rbf.mem.ptr tmp) with
  | none => exact Or.inl ⟨rfl, rfl⟩
  | some out =>
    rcases out with ⟨r, q'⟩
    by_cases hr : r = 0
    · cases hr
      refine Or.inr (Or.inr ⟨q', rfl, ?_⟩)
      by_cases hmore : 0 < (buff.ask v).consume.rlen
      · exact Or.inl ⟨hmore, if_pos hmore⟩
      · have hkeep : keepRest (buff.ask v).consume (tmp + (buff.ask v).msglen)
            = (buff.ask v).consume := if_neg fun hc => hmore hc.2
        exact Or.inr ⟨by omega, (if_neg hmore).trans (by rw [hkeep])⟩
    · exact Or.inr (Or.inl ⟨r, q', rfl, hr, by simp [hr]⟩)

/-! ## The invariant -/

/-- The calls are sound, a remembered length is one `get_msg_len` gave, and the
bytes at `tmp_ptr` are inside the buffer. -/
structure FrameInv (max : Int) (s : FrameSt Q) : Prop where
  ok : FrameOk max s
  msglen : 0 ≤ s.conn.buff.msglen ∧ s.conn.buff.msglen < 2 ^ 31
  tmp : ∀ p, s.phase = .framing p → 0 ≤ p ∧ p + s.conn.buff.rlen ≤ max

/-- A fresh connection. -/
theorem frameInv_init {max : Int} (hmax : 0 ≤ max) (q : Q) : FrameInv max (frameInit q) where
  ok := ⟨by simp [frameInit], Int.le_refl 0, hmax⟩
  msglen := ⟨Int.le_refl 0, by simp [frameInit, recvInit, emptyBuff]⟩
  tmp := by simp [frameInit]

variable {push : Push Q} {max : Int} {fd idx : Int32}

/-- A pass with a good length keeps the invariant. -/
theorem framePass_inv {v : Int32} {s t : FrameSt Q} (h : FrameInv max s)
    (hgood : UsesGoodLen (.pass v) s) (hstep : frameStep push max fd idx (.pass v) s = some t) :
    FrameInv max t := by
  cases hphase : s.phase with
  | framing p =>
    simp only [frameStep, hphase] at hstep
    rcases h.tmp p hphase with ⟨hp, hfit⟩
    have hcalls : ∀ c ∈ s.calls ++ passCall fd idx v s.conn.buff p, c.Ok max := by
      intro c hc
      rcases List.mem_append.mp hc with hold | hnew
      · exact h.ok.1 c hold
      · exact passCall_good hgood hp hfit c hnew
    have hlen := lenOf_range v ⟨Int.le_trans (by decide) h.msglen.1, h.msglen.2⟩
    have h0 := h.ok.2.1
    have hmax := h.ok.2.2
    have hnonneg := hgood.1
    rcases framePass_cases push fd idx v s.conn.buff p s.q with
      ⟨hshort, hpass⟩ | ⟨hle, ⟨_, hpass⟩ | ⟨r, q', _, _, hpass⟩ |
        ⟨q', _, ⟨hmore, hpass⟩ | ⟨hdone, hpass⟩⟩⟩
    · rw [hpass] at hstep
      cases hstep
      refine ⟨⟨hcalls, ?_, ?_⟩, ?_, by simp⟩
      · rw [keepRest_rlen]
        exact h0
      · rw [keepRest_rlen]
        exact hmax
      · rw [keepRest_msglen]
        exact ⟨hnonneg, hlen.2⟩
    · rw [hpass] at hstep
      cases hstep
      exact ⟨⟨hcalls, h0, hmax⟩, h.msglen, by simp⟩
    · rw [hpass] at hstep
      cases hstep
      exact ⟨⟨hcalls, h0, hmax⟩, ⟨hnonneg, hlen.2⟩, by simp⟩
    · -- a message is consumed, and there is more
      rw [hpass] at hstep
      cases hstep
      rw [consume_rlen hnonneg hle] at hmore
      refine ⟨⟨hcalls, ?_, ?_⟩, by simp, fun p' hp' => ?_⟩
      · rw [consume_rlen hnonneg hle]
        omega
      · rw [consume_rlen hnonneg hle]
        omega
      · cases hp'
        rw [consume_rlen hnonneg hle]
        omega
    · -- the last message is consumed
      rw [hpass] at hstep
      cases hstep
      refine ⟨⟨hcalls, ?_, ?_⟩, by simp, by simp⟩
      · rw [consume_rlen hnonneg hle]
        omega
      · rw [consume_rlen hnonneg hle]
        omega
  | idle | closed | crashed =>
    simp only [frameStep, hphase] at hstep
    cases hstep

/-- A pass with a bad length makes a call that is not sound. -/
theorem framePass_breaks {v : Int32} {s t : FrameSt Q} (h : FrameInv max s)
    (hbad : ¬ UsesGoodLen (.pass v) s) (hstep : frameStep push max fd idx (.pass v) s = some t) :
    ¬ FrameOk max t := by
  cases hphase : s.phase with
  | framing p =>
    simp only [frameStep, hphase] at hstep
    have hlen := lenOf_range v ⟨Int.le_trans (by decide) h.msglen.1, h.msglen.2⟩
    rcases passCall_bad fd idx p hbad h.ok.2.1 hlen.1 hlen.2 with ⟨c, hc, hno⟩
    have hcalls : t.calls = s.calls ++ passCall fd idx v s.conn.buff p := by
      split at hstep <;> cases hstep <;> rfl
    intro hok
    refine hno (hok.1 c ?_)
    rw [hcalls]
    exact List.mem_append_right _ hc
  | idle | closed | crashed =>
    simp only [frameStep, hphase] at hstep
    cases hstep

/-- A read keeps the invariant, whatever arrives. -/
theorem frameRead_inv {mapped : Bool} {outs : List RecvRes} {s t : FrameSt Q}
    (h : FrameInv max s) (hstep : frameStep push max fd idx (.read mapped outs) s = some t) :
    FrameInv max t := by
  cases hphase : s.phase with
  | idle =>
    simp only [frameStep, hphase] at hstep
    cases hread : handleRead max mapped s.conn outs with
    | error e =>
      rw [hread] at hstep
      cases hstep
    | ok out =>
      rcases out with ⟨r, c, rest⟩
      rw [hread] at hstep
      cases hstep
      rcases handleRead_bounds h.ok.2.1 h.ok.2.2 hread with ⟨hlo, hhi, hmsg⟩
      refine ⟨⟨h.ok.1, hlo, hhi⟩, ?_, ?_⟩
      · rcases hmsg with hmsg | hmsg
        · simp only [hmsg]
          exact h.msglen
        · simp [hmsg]
      · intro p hp
        simp only at hp
        split at hp
        · cases hp
        · cases hp
          simp only
          omega
  | framing p | closed | crashed =>
    simp only [frameStep, hphase] at hstep
    cases hstep

/-- **Sound blocks.** In every state of a run from a fresh connection, whatever
is received and whatever `get_msg_len` answers, all blocks handed to `mq_push`
are sound and `rlen` is inside the buffer, if and only if every pass of the run
uses a good length. -/
theorem frames_iff_good_lens (push : Push Q) {max : Int} (hmax : 0 ≤ max) (fd idx : Int32) (q : Q)
    (ls : List FrameLbl) :
    Throughout (frameStep push max fd idx) (FrameOk max) ls (frameInit q) ↔
      Along (frameStep push max fd idx) UsesGoodLen ls (frameInit q) := by
  refine throughout_iff_along _ (fun _ => FrameInv.ok) ?_ (frameInv_init hmax q)
  intro l s t hs hstep
  cases l with
  | read mapped outs => exact Or.inl ⟨trivial, frameRead_inv hs hstep⟩
  | pass v =>
    by_cases hgood : UsesGoodLen (.pass v) s
    · exact Or.inl ⟨hgood, framePass_inv hs hgood hstep⟩
    · exact Or.inr ⟨hgood, framePass_breaks hs hgood hstep⟩

/-- A read that ends inside the second of two messages of five bytes. -/
def twoReads : List FrameLbl :=
  [.read true [.data [5, 0, 0, 0, 65, 5, 0], .eagain], .pass 5, .pass 5,
    .read true [.data [0, 0, 66], .eagain], .pass 0]

/-- Both lengths are good, and so are both blocks. -/
theorem frames_iff_good_lens_twoReads :
    Throughout (frameStep mqPush 64 7 0) (FrameOk 64) twoReads (frameInit (mqInit 128)) :=
  (frames_iff_good_lens mqPush (by decide) 7 0 (mqInit 128) twoReads).mpr (by decide +kernel)

/-- Four bytes that read as the length `-1`. -/
def negativeLen : List FrameLbl :=
  [.read true [.data [255, 255, 255, 255], .eagain], .pass (-1)]

/-- The block pushed for them is shorter than its header, and the `memcpy` of
its payload runs away. -/
theorem negativeLen_not_frameOk :
    ∃ s, exec (frameStep mqPush 64 7 0) negativeLen (frameInit (mqInit 128)) = some s ∧
      s.phase = .crashed ∧ ¬ FrameOk 64 s := by
  have hsome : (exec (frameStep mqPush 64 7 0) negativeLen (frameInit (mqInit 128))).isSome := by
    decide +kernel
  have hfacts : ∀ s ∈ exec (frameStep mqPush 64 7 0) negativeLen (frameInit (mqInit 128)),
      s.phase = .crashed ∧ ∃ c ∈ s.calls, c.blk.len.toInt = 12 := by
    decide +kernel
  rcases Option.isSome_iff_exists.mp hsome with ⟨s, hrun⟩
  rcases hfacts s hrun with ⟨hphase, c, hc, hlen⟩
  refine ⟨s, hrun, hphase, fun hok => ?_⟩
  have hlong := (hok.1 c hc).1
  rw [hlen] at hlong
  exact absurd hlong (by decide)

end SServer.Net
