import SServer.Net.Header

/-!
# SServer.Net.Shutdown — the last bytes before the end of the stream

Both processes read with `handle_read` and cut what they have into messages: the
master in `handle_cli`, a worker in `do_proc_svr`. A call of `safe_tcp_recv_n` that
sees the end of the stream returns `0`, whatever it has stored before, and
`handle_read` then gives up the connection with what was in the buffer, and with
what has just been put behind it.

The result: all bytes taken from the kernel are delivered or wait as the beginning
of a message, exactly when no such call has received a byte before.

* `passLoop_offers`: the loop of either handler offers everything, unless a message was refused.
* `takeStep_cases`: one call, on either side of the condition.
* `received_accounted_iff`: the result, for both processes and any positive answers of
  `get_msg_len`.
* `eofTogether_not_accounted`: a message and the end of the stream in one call: nobody is told
  of the message.

`do_proc_svr` goes for ever over a length of zero, so lengths are positive here. A push that is
refused ends a call with `-1`; what is lost by it is not a matter of this module.
-/

namespace SServer.Net

open SServer.Lib SServer.Queue

variable {Q W : Type}

/-! ## `do_proc_svr` -/

/-- `so.proc_serv_msg`: it is given the descriptor, the message and its length. -/
abbrev Proc (W : Type) := W → Int32 → Mem → Int → W

/-- One pass of `do_proc_svr` from the label `proc_again`. -/
def svrPass (proc : Proc W) (fd : Int32) (v : Int32) (buff : FdBuff) (tmp : Int) (w : W) :
    Pass W :=
  let buff := buff.ask v
  if buff.msglen ≤ buff.rlen then
    let w := proc w fd (buff.rbf.mem.ptr tmp) buff.msglen
    let tmp := tmp + buff.msglen
    if 0 < buff.consume.rlen then .again buff.consume tmp w
    else .done (keepRest buff.consume tmp) w
  else .done (keepRest buff tmp) w

/-- All that a pass can do: wait for more, or hand over a message and go on or stop. -/
theorem svrPass_cases (proc : Proc W) (fd v : Int32) (buff : FdBuff) (tmp : Int) (w : W) :
    buff.rlen < lenOf v buff ∧ svrPass proc fd v buff tmp w = .done (keepRest (buff.ask v) tmp) w ∨
      lenOf v buff ≤ buff.rlen ∧
        (0 < (buff.ask v).consume.rlen ∧ svrPass proc fd v buff tmp w =
            .again (buff.ask v).consume (tmp + lenOf v buff)
              (proc w fd (buff.rbf.mem.ptr tmp) (lenOf v buff)) ∨
          (buff.ask v).consume.rlen ≤ 0 ∧ svrPass proc fd v buff tmp w =
            .done (buff.ask v).consume (proc w fd (buff.rbf.mem.ptr tmp) (lenOf v buff))) := by
  unfold svrPass
  by_cases hle : (buff.ask v).msglen ≤ (buff.ask v).rlen
  swap
  · rw [if_neg hle]
    rw [ask_msglen, ask_rlen] at hle
    exact Or.inl ⟨by omega, rfl⟩
  rw [if_pos hle]
  refine Or.inr ⟨hle, ?_⟩
  by_cases hmore : 0 < (buff.ask v).consume.rlen
  · exact Or.inl ⟨hmore, if_pos hmore⟩
  · have hkeep : keepRest (buff.ask v).consume (tmp + (buff.ask v).msglen)
        = (buff.ask v).consume := if_neg fun hc => hmore hc.2
    refine Or.inr ⟨by omega, (if_neg hmore).trans ?_⟩
    rw [hkeep]
    rfl

/-- Passes one after another, with a count of them. -/
def passLoop (pass : Int32 → FdBuff → Int → Q → Pass Q) (get : Mem → Int → Int32) :
    Nat → FdBuff → Int → Q → Option (Int × FdBuff × Q)
  | 0, _, _, _ => none
  | n + 1, buff, tmp, q =>
    match pass (get (buff.rbf.mem.ptr tmp) buff.rlen) buff tmp q with
    | .again buff tmp q => passLoop pass get n buff tmp q
    | .done buff q => some (0, buff, q)
    | .failed buff q => some (-1, buff, q)
    | .crashed => none

/-- A handler of either process: `handle_read`, and then its passes. -/
def handlerOf (pass : Int32 → FdBuff → Int → Q → Pass Q) (get : Mem → Int → Int32) (max : Int)
    (mapped : Bool) (outs : List RecvRes) (c : RecvConn) (q : Q) : Option (Int × RecvConn × Q) :=
  match handleRead max mapped c outs with
  | .error _ => none
  | .ok (r, c, _) =>
    if r = -1 then some (-1, c, q)
    else
      match passLoop pass get (passBound c.buff) c.buff 0 q with
      | none => none
      | some (r, buff, q) => some (r, { c with buff := buff }, q)

/-- `do_proc_svr`. Where `get_msg_len` answers zero it hands the same empty message to
`proc_serv_msg` for ever, as no queue refuses one here. -/
def doProcSvr (proc : Proc W) (get : Mem → Int → Int32) (max : Int) (fd : Int32) (mapped : Bool)
    (outs : List RecvRes) (c : RecvConn) (w : W) : Option (Int × RecvConn × W) :=
  handlerOf (svrPass proc fd) get max mapped outs c w

/-- What a pass leaves has the property `I`. -/
def Pass.Leaves (I : FdBuff → Q → Prop) : Pass Q → Prop
  | .again buff _ q => I buff q
  | .done buff q => I buff q
  | .failed buff q => I buff q
  | .crashed => True

/-- What each pass keeps, the loop keeps. -/
theorem passLoop_keeps (I : FdBuff → Q → Prop) {pass : Int32 → FdBuff → Int → Q → Pass Q}
    (hpass : ∀ v buff tmp q, I buff q → (pass v buff tmp q).Leaves I) (get : Mem → Int → Int32) :
    ∀ (n : Nat) {buff buff' : FdBuff} {tmp r : Int} {q q' : Q}, I buff q →
      passLoop pass get n buff tmp q = some (r, buff', q') → I buff' q' := by
  intro n
  induction n with
  | zero =>
    intro buff buff' tmp r q q' _ h
    cases h
  | succ n ih =>
    intro buff buff' tmp r q q' hI h
    unfold passLoop at h
    have hleft := hpass (get (buff.rbf.mem.ptr tmp) buff.rlen) buff tmp q hI
    cases heq : pass (get (buff.rbf.mem.ptr tmp) buff.rlen) buff tmp q with
    | again buff₁ tmp₁ q₁ =>
      rw [heq] at h hleft
      exact ih hleft h
    | done buff₁ q₁ =>
      rw [heq] at h hleft
      cases h
      exact hleft
    | failed buff₁ q₁ =>
      rw [heq] at h hleft
      cases h
      exact hleft
    | crashed =>
      rw [heq] at h
      cases h

/-- What the read and each pass keep, the handler keeps. -/
theorem handlerOf_keeps (I : FdBuff → Q → Prop) {pass : Int32 → FdBuff → Int → Q → Pass Q}
    (hpass : ∀ v buff tmp q, I buff q → (pass v buff tmp q).Leaves I) {get : Mem → Int → Int32}
    {max : Int} {mapped : Bool} {outs : List RecvRes} {c c' : RecvConn} {q q' : Q} {r : Int}
    (hread : ∀ r c₁ rest, handleRead max mapped c outs = .ok (r, c₁, rest) → I c₁.buff q)
    (h : handlerOf pass get max mapped outs c q = some (r, c', q')) : I c'.buff q' := by
  unfold handlerOf at h
  split at h
  · cases h
  · next hok =>
    have hI := hread _ _ _ hok
    split at h
    · cases h
      exact hI
    · split at h
      · cases h
      · next hloop =>
        cases h
        exact passLoop_keeps I hpass get _ hI hloop

/-- The loop of `handle_cli` is made of its passes likewise. -/
theorem frameLoop_eq (push : Push Q) (get : Mem → Int → Int32) (fd idx : Int32) :
    ∀ (n : Nat) (buff : FdBuff) (tmp : Int) (q : Q),
      frameLoop push get fd idx n buff tmp q =
        passLoop (framePass push fd idx) get n buff tmp q := by
  intro n
  induction n with
  | zero =>
    intro buff tmp q
    rfl
  | succ n ih =>
    intro buff tmp q
    unfold frameLoop passLoop
    cases framePass push fd idx (get (buff.rbf.mem.ptr tmp) buff.rlen) buff tmp q with
    | again buff tmp q => exact ih buff tmp q
    | done buff q => rfl
    | failed buff q => rfl
    | crashed => rfl

/-- `handle_cli` is a handler. -/
theorem handleCli_eq (push : Push Q) (get : Mem → Int → Int32) (max : Int) (fd idx : Int32) :
    handleCli push get max fd idx = handlerOf (framePass push fd idx) get max := by
  funext mapped outs c q
  unfold handleCli handlerOf
  cases handleRead max mapped c outs with
  | error e => rfl
  | ok out =>
    rcases out with ⟨r, c, rest⟩
    by_cases hr : r = -1
    · simp only [hr, if_true]
    · cases hloop : passLoop (framePass push fd idx) get (passBound c.buff) c.buff 0 q with
      | none => simp only [hr, if_false, frameLoop_eq, hloop]
      | some out => simp only [hr, if_false, frameLoop_eq, hloop]

/-! ## Deliveries -/

/-- A queue, or what `proc_serv_msg` works on, with the messages delivered to it, and
whether one has been refused. -/
structure Tally (Q : Type) where
  q : Q
  sent : List (List UInt8)
  refused : Bool

/-- `mq_push` with a note of the payloads it has taken. -/
def tallying (push : Push Q) : Push (Tally Q) := fun t b data =>
  (push t.q b data).map fun (r, q) =>
    (r, if r = 0 then { t with q := q, sent := t.sent ++ [bytes data (b.len.toInt - blkHeadLen)] }
      else { t with q := q, refused := true })

/-- `proc_serv_msg` with a note of the messages it was given. -/
def tallyingProc (proc : Proc W) : Proc (Tally W) := fun t fd data n =>
  { t with q := proc t.q fd data n, sent := t.sent ++ [bytes data n] }

/-- A connection with what has been delivered of it, the bytes taken from the kernel,
whether it is open, and whether the last call has returned. -/
structure TakeSt (Q : Type) where
  conn : RecvConn
  tally : Tally Q
  taken : List UInt8
  isOpen : Bool
  returned : Bool

/-- A connection just registered. -/
def takeInit (q : Q) : TakeSt Q :=
  { conn := recvInit
    tally := { q := q, sent := [], refused := false }
    taken := []
    isOpen := true
    returned := true }

/-- A call of the handler: whether a first `mmap` succeeds, and what `recv` answers. -/
structure ReadCall where
  mapped : Bool
  outs : List RecvRes

/-- The bytes that `recv` hands over. -/
def received : List RecvRes → List UInt8
  | [] => []
  | .data bs :: outs => bs ++ received outs
  | _ :: outs => received outs

/-- A handler: `handle_cli` or `do_proc_svr`. -/
abbrev Handler (Q : Type) :=
  Bool → List RecvRes → RecvConn → Tally Q → Option (Int × RecvConn × Tally Q)

/-- The handler is called, and `do_fd_close` when it returns `-1`. The answers are those
to exactly the calls of `recv` made. -/
def takeStep (max : Int) (handler : Handler Q) (l : ReadCall) (s : TakeSt Q) :
    Option (TakeSt Q) :=
  if s.isOpen = true then
    match handleRead max l.mapped s.conn l.outs with
    | .ok (_, _, []) =>
      let taken := s.taken ++ received l.outs
      match handler l.mapped l.outs s.conn s.tally with
      | none => some { s with taken := taken, isOpen := false, returned := false }
      | some (r, c, t) =>
        some
          { conn := c, tally := t, taken := taken, isOpen := decide (r ≠ -1), returned := true }
    | _ => none
  else none

/-- The master's step. -/
def cliStep (push : Push Q) (get : Mem → Int → Int32) (max : Int) (fd idx : Int32) :
    ReadCall → TakeSt Q → Option (TakeSt Q) :=
  takeStep max (handleCli (tallying push) get max fd idx)

/-- A worker's step. -/
def svrStep (proc : Proc W) (get : Mem → Int → Int32) (max : Int) (fd : Int32) :
    ReadCall → TakeSt W → Option (TakeSt W) :=
  takeStep max (doProcSvr (tallyingProc proc) get max fd)

/-! ## What is to hold -/

/-- Unless the queue has refused a message, what was taken from the kernel is what was
delivered and what waits in the buffer, and this is not a whole message. -/
def Accounted (s : TakeSt Q) : Prop :=
  s.returned = true ∧ (s.tally.refused = false →
    s.taken = s.tally.sent.flatten ++ bytes s.conn.buff.rbf.mem s.conn.buff.rlen ∧
      (s.conn.buff.rlen = 0 ∨ s.conn.buff.rlen < s.conn.buff.msglen))

/-- Who sees the end of the stream, or a failure, has received nothing. -/
def Alone (outs : List RecvRes) : Prop := .eof ∈ outs ∨ .err ∈ outs → received outs = []

/-- The condition: no call of `safe_tcp_recv_n` sees the end of the stream, or a failure,
behind bytes it has received. -/
def EofAlone (l : ReadCall) (_ : TakeSt Q) : Prop := Alone l.outs

/-- `get_msg_len` answers with the length of a message: positive, and with the block's
header an int. -/
def Frames (get : Mem → Int → Int32) : Prop :=
  ∀ mem n, 0 < n → 0 < (get mem n).toInt ∧ (get mem n).toInt + blkHeadLen < 2 ^ 31

/-- `mq_push` comes back. -/
def Returns (push : Push Q) : Prop := ∀ q b data, b.Pushable → push q b data ≠ none

/-! ## Passes -/

/-- What both passes do with a message: wait for the rest of it, or deliver it, unless
it is refused. -/
structure Delivers (pass : Int32 → FdBuff → Int → Tally Q → Pass (Tally Q)) : Prop where
  waits : ∀ v buff tmp t, buff.rlen < lenOf v buff →
    pass v buff tmp t = .done (keepRest (buff.ask v) tmp) t
  takes : ∀ v buff tmp t, 0 < lenOf v buff → lenOf v buff + blkHeadLen < 2 ^ 31 →
    lenOf v buff ≤ buff.rlen →
    (∃ t', pass v buff tmp t = .failed (buff.ask v) t' ∧ t'.refused = true) ∨
    ∃ t', t'.sent = t.sent ++ [bytes (buff.rbf.mem.ptr tmp) (lenOf v buff)] ∧
      t'.refused = t.refused ∧
      (0 < (buff.ask v).consume.rlen ∧
          pass v buff tmp t = .again (buff.ask v).consume (tmp + lenOf v buff) t' ∨
        (buff.ask v).consume.rlen ≤ 0 ∧ pass v buff tmp t = .done (buff.ask v).consume t')

/-- `handle_cli` pushes it. -/
theorem framePass_delivers {push : Push Q} (hpush : Returns push) (fd idx : Int32) :
    Delivers (framePass (tallying push) fd idx) := by
  constructor
  · intro v buff tmp t hshort
    rcases framePass_cases (tallying push) fd idx v buff tmp t with ⟨_, hpass⟩ | ⟨hle, _⟩
    · exact hpass
    · omega
  · intro v buff tmp t hpos hmax hle
    have hlen : (raw2blk fd idx (buff.ask v)).len.toInt = lenOf v buff + blkHeadLen :=
      raw2blk_len_good fd idx (by rw [ask_msglen]; omega) hmax
    rcases framePass_cases (tallying push) fd idx v buff tmp t with
      ⟨hshort, _⟩ | ⟨_, ⟨hnone, _⟩ | ⟨r, t', hsome, hr, hpass⟩ | ⟨t', hsome, hpass⟩⟩
    · omega
    · -- the push returns
      unfold tallying at hnone
      rw [Option.map_eq_none_iff] at hnone
      refine absurd hnone (hpush _ _ _ ⟨by omega, ?_⟩)
      simp [raw2blk, MemBlockType.code]
    · left
      refine ⟨t', hpass, ?_⟩
      rcases Option.map_eq_some_iff.mp hsome with ⟨⟨r', q⟩, _, heq⟩
      cases heq
      simp only [hr, if_false]
    · right
      refine ⟨t', ?_, ?_, hpass⟩
      · rcases Option.map_eq_some_iff.mp hsome with ⟨⟨r', q⟩, _, heq⟩
        cases heq
        simp only [if_true, hlen]
        rw [Int.add_sub_cancel]
      · rcases Option.map_eq_some_iff.mp hsome with ⟨⟨r', q⟩, _, heq⟩
        cases heq
        simp only [if_true]

/-- `do_proc_svr` hands it to `proc_serv_msg`. -/
theorem svrPass_delivers (proc : Proc W) (fd : Int32) :
    Delivers (svrPass (tallyingProc proc) fd) := by
  constructor
  · intro v buff tmp t hshort
    rcases svrPass_cases (tallyingProc proc) fd v buff tmp t with ⟨_, hpass⟩ | ⟨hle, _⟩
    · exact hpass
    · omega
  · intro v buff tmp t hpos hmax hle
    rcases svrPass_cases (tallyingProc proc) fd v buff tmp t with ⟨hshort, _⟩ | ⟨_, hpass⟩
    · omega
    · exact Or.inr ⟨tallyingProc proc t fd (buff.rbf.mem.ptr tmp) (lenOf v buff), rfl, rfl, hpass⟩

/-! ## The loop -/

/-- The bytes `bs` have been offered: they are delivered behind `sent`, or what is left of
them waits as the beginning of a message. -/
structure Offered (sent : List (List UInt8)) (bs : List UInt8) (buff : FdBuff) (t : Tally Q) :
    Prop where
  all : t.sent.flatten ++ bytes buff.rbf.mem buff.rlen = sent.flatten ++ bs
  rest : buff.rlen = 0 ∧ buff.msglen = 0 ∨
    0 < buff.rlen ∧ buff.rlen < buff.msglen ∧ buff.msglen + blkHeadLen < 2 ^ 31
  mapped : ∃ mem, buff.rbf = .mapped mem

/-- The length that a pass goes by. -/
theorem Frames.lenOf {get : Mem → Int → Int32} (hget : Frames get) {buff : FdBuff} (mem : Mem)
    (hrlen : 0 < buff.rlen) (hlo : 0 ≤ buff.msglen) (hhi : buff.msglen + blkHeadLen < 2 ^ 31) :
    0 < Net.lenOf (get mem buff.rlen) buff ∧
      Net.lenOf (get mem buff.rlen) buff + blkHeadLen < 2 ^ 31 := by
  unfold Net.lenOf
  by_cases hask : buff.msglen = 0 ∧ 0 < buff.rlen
  · rw [if_pos hask]
    exact hget mem buff.rlen hrlen
  · rw [if_neg hask]
    exact ⟨by omega, hhi⟩

/-- **The loop ends, and has offered everything** that is behind `tmp_ptr`, unless a
message was refused. -/
theorem passLoop_offers {pass : Int32 → FdBuff → Int → Tally Q → Pass (Tally Q)}
    (hpass : Delivers pass) {get : Mem → Int → Int32} (hget : Frames get) :
    ∀ (n : Nat) {buff : FdBuff} (tmp : Int) (t : Tally Q), 0 < buff.rlen → buff.rlen < n →
      0 ≤ buff.msglen → buff.msglen + blkHeadLen < 2 ^ 31 → (∃ mem, buff.rbf = .mapped mem) →
      ∃ r buff' t', passLoop pass get n buff tmp t = some (r, buff', t') ∧
        (r = -1 ∧ t'.refused = true ∨
          r = 0 ∧ t'.refused = t.refused ∧
            Offered t.sent (bytes (buff.rbf.mem.ptr tmp) buff.rlen) buff' t') := by
  intro n
  induction n with
  | zero =>
    intro buff tmp t hrlen hn
    omega
  | succ n ih =>
    intro buff tmp t hrlen hn hlo hhi hmap
    rcases hget.lenOf (buff.rbf.mem.ptr tmp) hrlen hlo hhi with ⟨hpos, hmax⟩
    unfold passLoop
    generalize get (buff.rbf.mem.ptr tmp) buff.rlen = v at hpos hmax
    by_cases hshort : buff.rlen < lenOf v buff
    · -- the message is not complete
      rw [hpass.waits v buff tmp t hshort]
      refine ⟨0, _, _, rfl, Or.inr ⟨rfl, rfl, ?_, ?_, ?_⟩⟩
      · rw [keepRest_rlen]
        exact congrArg (t.sent.flatten ++ ·) (keepRest_bytes (buff.ask v) tmp)
      · right
        rw [keepRest_rlen, keepRest_msglen]
        exact ⟨hrlen, hshort, hmax⟩
      · exact keepRest_mapped hmap
    · have hle : lenOf v buff ≤ buff.rlen := by omega
      rcases hpass.takes v buff tmp t hpos hmax hle with
        ⟨t', heq, hrefused⟩ | ⟨t', hsent, hrefused, hrest⟩
      · rw [heq]
        exact ⟨-1, _, _, rfl, Or.inl ⟨rfl, hrefused⟩⟩
      -- the message is the beginning of what is there
      have hsplit := bytes_add (buff.rbf.mem.ptr tmp) (Int.le_of_lt hpos)
        (show 0 ≤ buff.rlen - lenOf v buff by omega)
      rw [show lenOf v buff + (buff.rlen - lenOf v buff) = buff.rlen by omega,
        Mem.ptr_ptr] at hsplit
      have hflat : t'.sent.flatten =
          t.sent.flatten ++ bytes (buff.rbf.mem.ptr tmp) (lenOf v buff) := by
        rw [hsent, List.flatten_append, List.flatten_singleton]
      have hleft := consume_rlen (Int.le_of_lt hpos) hle
      rcases hrest with ⟨hmore, heq⟩ | ⟨hdone, heq⟩
      · rw [heq]
        simp only
        have hless : (buff.ask v).consume.rlen < n := by
          rw [hleft]
          omega
        rcases ih (tmp + lenOf v buff) t' hmore hless (Int.le_refl 0) (by simp [blkHeadLen]) hmap
          with ⟨r, buff', t'', hloop, hcase⟩
        refine ⟨r, buff', t'', hloop, ?_⟩
        rcases hcase with hno | ⟨hr, hsame, hoff⟩
        · exact Or.inl hno
        · refine Or.inr ⟨hr, hsame.trans hrefused, ?_, hoff.rest, hoff.mapped⟩
          rw [hoff.all, hflat, hsplit, List.append_assoc, hleft]
          rfl
      · rw [heq]
        have hzero : buff.rlen - lenOf v buff = 0 := by omega
        rw [hzero] at hleft
        refine ⟨0, _, _, rfl, Or.inr ⟨rfl, hrefused, ?_, Or.inl ⟨hleft, rfl⟩, hmap⟩⟩
        rw [hflat, hsplit, hleft, hzero, bytes_zero, bytes_zero, List.append_nil,
          List.append_nil]

/-! ## The read -/

/-- What `safe_tcp_recv_n` has stored is what it was handed; it returns as many bytes
unless it has seen the end of the stream or a failure. -/
theorem recvLoop_received {total : Int} : ∀ {outs : List RecvRes} {got got' : List UInt8}
    {ret : Int}, recvLoop total got outs = .ok ⟨ret, got', []⟩ →
      got' = got ++ received outs ∧
        (ret = got'.length ∧ .eof ∉ outs ∧ .err ∉ outs ∨
          ret ≤ 0 ∧ (.eof ∈ outs ∨ .err ∈ outs)) := by
  intro outs
  induction outs with
  | nil =>
    intro got got' ret h
    unfold recvLoop at h
    split at h
    · cases h
      exact ⟨(List.append_nil got).symm, Or.inl ⟨rfl, by simp, by simp⟩⟩
    · cases h
  | cons o outs ih =>
    intro got got' ret h
    unfold recvLoop at h
    split at h
    · cases h
    cases o with
    | data bs =>
      simp only at h
      split at h
      · cases h
      · rcases ih h with ⟨hgot, hret⟩
        refine ⟨?_, by simpa using hret⟩
        rw [hgot, received, List.append_assoc]
    | eintr =>
      rcases ih h with ⟨hgot, hret⟩
      exact ⟨hgot, by simpa using hret⟩
    | eof =>
      cases h
      exact ⟨(List.append_nil got).symm, Or.inr ⟨Int.le_refl 0, by simp⟩⟩
    | eagain =>
      cases h
      exact ⟨(List.append_nil got).symm, Or.inl ⟨rfl, by simp, by simp⟩⟩
    | err =>
      cases h
      exact ⟨(List.append_nil got).symm, Or.inr ⟨by simp, by simp⟩⟩

/-- A buffer as it is between two calls: not mapped yet and empty, or mapped; a length
is remembered for a beginning of a message only. -/
structure Waiting (buff : FdBuff) : Prop where
  nonneg : 0 ≤ buff.rlen
  rest : buff.rlen = 0 ∧ buff.msglen = 0 ∨
    0 < buff.rlen ∧ buff.rlen < buff.msglen ∧ buff.msglen + blkHeadLen < 2 ^ 31
  rbf : buff.rbf = .null ∧ buff.rlen = 0 ∨ ∃ mem, buff.rbf = .mapped mem

/-- What `handle_read` leaves in the buffer: what was there when it fails, and behind it
what it has received when it does not. -/
structure Taken (buff buff' : FdBuff) (bs : List UInt8) : Prop where
  rlen : buff'.rlen = buff.rlen + bs.length
  msglen : buff'.msglen = buff.msglen
  all : bytes buff'.rbf.mem buff'.rlen = bytes buff.rbf.mem buff.rlen ++ bs

/-- `handle_read` on mapped bytes. -/
theorem readMapped_takes {max : Int} {mem : Mem} {c c' : RecvConn} {outs : List RecvRes} {r : Int}
    (hmem : c.buff.rbf = .mapped mem) (h0 : 0 ≤ c.buff.rlen) (hmax : 0 < max)
    (h : readMapped max mem c outs = .ok (r, c', [])) :
    (r = -1 ∧ Taken c.buff c'.buff [] ∧ (received outs = [] ↔ Alone outs) ∨
      r ≠ -1 ∧ Taken c.buff c'.buff (received outs) ∧ 0 < c'.buff.rlen ∧ Alone outs) ∧
      ∃ mem', c'.buff.rbf = .mapped mem' := by
  rcases readMapped_cases h with
    ⟨hfull, rfl, rfl, hrest⟩ | ⟨hroom, total, rd, stored, _, _, hrecv, hrest, hstored, hcase⟩
  · rw [← hrest]
    exact ⟨Or.inr ⟨by decide, ⟨by simp [received], rfl, by simp [received]⟩, by omega,
      fun _ => rfl⟩, mem, hmem⟩
  rcases rd with ⟨ret, got, rest⟩
  subst hrest hstored
  simp only at hcase
  rcases recvLoop_received hrecv with ⟨hgot, hret⟩
  rw [List.nil_append] at hgot
  -- either bytes were taken, or `recv` ended the call
  rcases hcase with ⟨hpos, hr, hbuff⟩ | ⟨hneg, hr, hbuff⟩
  · rcases hret with ⟨hlen, hno⟩ | ⟨hle, _⟩
    · rw [hbuff]
      refine ⟨Or.inr ⟨by omega, ⟨?_, rfl, ?_⟩, by simp only; omega,
        fun hends => absurd hends (not_or.mpr hno)⟩, _, rfl⟩
      · simp only [hlen, hgot]
      · simp only [hlen, hmem, Rbf.mem]
        rw [← hgot]
        exact bytes_store mem h0 got
    · omega
  · rw [hbuff]
    refine ⟨Or.inl ⟨hr, ⟨by simp, rfl, ?_⟩, ?_⟩, _, rfl⟩
    · -- what was copied lies behind `rlen`, which is not raised
      have hkept : bytes (memcpy mem c.buff.rlen (ofBytes got) got.length) c.buff.rlen =
          bytes mem c.buff.rlen := by
        refine bytes_congr fun i _ hi => ?_
        rw [memcpy_out (by omega)]
      simp only [hmem, Rbf.mem, hkept, List.append_nil]
    · rcases hret with ⟨hlen, _⟩ | ⟨_, hends⟩
      · have hnil : received outs = [] := by
          rw [← hgot]
          exact List.eq_nil_of_length_eq_zero (by omega)
        exact ⟨fun _ _ => hnil, fun _ => hnil⟩
      · exact ⟨fun hnil _ => hnil, fun halone => halone hends⟩

/-- A buffer between two calls, whatever length it remembers for what it has. -/
structure Kept (buff : FdBuff) : Prop where
  nonneg : 0 ≤ buff.rlen
  msglen : buff.rlen = 0 → buff.msglen = 0
  rbf : buff.rbf = .null ∧ buff.rlen = 0 ∨ ∃ mem, buff.rbf = .mapped mem

/-- What waits is in a sound buffer. -/
theorem Waiting.kept {buff : FdBuff} (h : Waiting buff) : Kept buff := by
  refine ⟨h.nonneg, fun hzero => ?_, h.rbf⟩
  rcases h.rest with ⟨_, hmsg⟩ | ⟨hpos, _⟩
  · exact hmsg
  · omega

/-- **What `handle_read` takes** between two calls. -/
theorem handleRead_takes {max : Int} {mapped : Bool} {c c' : RecvConn} {outs : List RecvRes}
    {r : Int} (hkept : Kept c.buff) (hmax : 0 < max)
    (h : handleRead max mapped c outs = .ok (r, c', [])) :
    r = -1 ∧ Taken c.buff c'.buff [] ∧ (received outs = [] ↔ Alone outs) ∨
      r ≠ -1 ∧ Taken c.buff c'.buff (received outs) ∧ 0 < c'.buff.rlen ∧ Alone outs ∧
        ∃ mem, c'.buff.rbf = .mapped mem := by
  rcases handleRead_cases h with ⟨hnull, hmap⟩ | ⟨hfailed, _⟩ | ⟨mem, hmem, hread⟩
  · have hzero : c.buff.rlen = 0 := by
      rcases hkept.rbf with ⟨_, hzero⟩ | ⟨mem, hmem⟩
      · exact hzero
      · rw [hnull] at hmem
        cases hmem
    rcases hmap with ⟨_, hr, hrest, rfl⟩ | ⟨_, hread⟩
    · left
      rw [← hrest]
      refine ⟨hr, ⟨by simp [hzero], (hkept.msglen hzero).symm, ?_⟩, fun _ _ => rfl, fun _ => rfl⟩
      rw [hzero]
      rfl
    · rcases readMapped_takes rfl (Int.le_refl 0) hmax hread with ⟨hcase, hmem⟩
      have hfresh : ∀ bs, Taken { c.buff with msglen := 0, rlen := 0, rbf := .mapped fun _ => 0 }
          c'.buff bs → Taken c.buff c'.buff bs := by
        intro bs ht
        refine ⟨by rw [hzero]; exact ht.rlen, ht.msglen.trans (hkept.msglen hzero).symm, ?_⟩
        rw [hzero]
        exact ht.all
      rcases hcase with ⟨hr, ht, halone⟩ | ⟨hr, ht, hpos, halone⟩
      · exact Or.inl ⟨hr, hfresh _ ht, halone⟩
      · exact Or.inr ⟨hr, hfresh _ ht, hpos, halone, hmem⟩
  · rcases hkept.rbf with ⟨hnull, _⟩ | ⟨mem, hmem⟩
    · cases hfailed.symm.trans hnull
    · cases hfailed.symm.trans hmem
  · rcases readMapped_takes hmem hkept.nonneg hmax hread with ⟨hcase, hmap⟩
    rcases hcase with hfail | ⟨hr, ht, hpos, halone⟩
    · exact Or.inl hfail
    · exact Or.inr ⟨hr, ht, hpos, halone, hmap⟩

/-! ## The handlers -/

/-- The invariant: an open connection waits, and its queue has refused nothing. -/
structure TakeInv (s : TakeSt Q) : Prop where
  ok : Accounted s
  waits : s.isOpen = true → s.tally.refused = false ∧ Waiting s.conn.buff

/-- Nothing has been taken at first. -/
theorem takeInit_inv (q : Q) : TakeInv (takeInit q) := by
  constructor
  · exact ⟨rfl, fun _ => ⟨rfl, Or.inl rfl⟩⟩
  · intro _
    exact ⟨rfl, Int.le_refl 0, Or.inl ⟨rfl, rfl⟩, Or.inl ⟨rfl, rfl⟩⟩

/-- **One call of a handler**, on either side of the condition. -/
theorem takeStep_cases {pass : Int32 → FdBuff → Int → Tally Q → Pass (Tally Q)}
    (hpass : Delivers pass) {get : Mem → Int → Int32} (hget : Frames get) {max : Int}
    (hmax : 0 < max) {l : ReadCall} {s t : TakeSt Q} (hs : TakeInv s)
    (hstep : takeStep max (handlerOf pass get max) l s = some t) :
    EofAlone l s ∧ TakeInv t ∨ ¬ EofAlone l s ∧ ¬ Accounted t := by
  unfold takeStep handlerOf at hstep
  by_cases hopen : s.isOpen = true
  swap
  · rw [if_neg hopen] at hstep
    cases hstep
  rw [if_pos hopen] at hstep
  rcases hs.waits hopen with ⟨hrefused, hwait⟩
  have htaken := (hs.ok.2 hrefused).1
  cases hread : handleRead max l.mapped s.conn l.outs with
  | error e =>
    rw [hread] at hstep
    cases hstep
  | ok out =>
  rcases out with ⟨r, c, _ | ⟨o, rest⟩⟩
  swap
  · rw [hread] at hstep
    cases hstep
  simp only [hread] at hstep
  rcases handleRead_takes hwait.kept hmax hread with
    ⟨hr, ht, halone⟩ | ⟨hr, ht, hpos, halone, hmap⟩
  · -- the connection is given up
    rw [if_pos hr] at hstep
    cases hstep
    have hkept : bytes c.buff.rbf.mem c.buff.rlen = bytes s.conn.buff.rbf.mem s.conn.buff.rlen := by
      rw [ht.all, List.append_nil]
    have hrlen : c.buff.rlen = s.conn.buff.rlen := by simpa using ht.rlen
    by_cases hnone : received l.outs = []
    · left
      refine ⟨halone.mp hnone, ⟨rfl, fun _ => ⟨?_, ?_⟩⟩, fun hno => ?_⟩
      · simp only [hnone, List.append_nil, hkept]
        exact htaken
      · rw [hrlen, ht.msglen]
        exact (hs.ok.2 hrefused).2
      · simp at hno
    · right
      refine ⟨fun hcond => hnone (halone.mpr hcond), fun hok => hnone ?_⟩
      have heq := (hok.2 hrefused).1
      simp only [hkept, ← htaken] at heq
      exact List.append_right_eq_self.mp heq
  · left
    refine ⟨halone, ?_⟩
    rw [if_neg hr] at hstep
    have hlen : 0 ≤ c.buff.msglen ∧ c.buff.msglen + blkHeadLen < 2 ^ 31 := by
      rw [ht.msglen]
      rcases hwait.rest with ⟨_, hzero⟩ | ⟨hlo, hlt, hhi⟩
      · rw [hzero]
        simp [blkHeadLen]
      · exact ⟨by omega, hhi⟩
    rcases passLoop_offers hpass hget (passBound c.buff) 0 s.tally hpos (rlen_lt_passBound _) hlen.1
      hlen.2 hmap with ⟨r', buff', t', hloop, hcase⟩
    rw [hloop] at hstep
    cases hstep
    rcases hcase with ⟨hr', hfull⟩ | ⟨hr', hsame, hoff⟩
    · -- a message is refused
      have hno : t'.refused ≠ false := by
        rw [hfull]
        simp
      refine ⟨⟨rfl, fun hyes => absurd hyes hno⟩, fun hopen' => ?_⟩
      simp [hr'] at hopen'
    · refine ⟨⟨rfl, fun _ => ⟨?_, ?_⟩⟩, fun _ => ⟨hsame.trans hrefused, ?_, hoff.rest,
        Or.inr hoff.mapped⟩⟩
      · rw [hoff.all, Mem.ptr_zero, ht.all, htaken, List.append_assoc]
      · rcases hoff.rest with ⟨hzero, _⟩ | ⟨_, hlt, _⟩
        · exact Or.inl hzero
        · exact Or.inr hlt
      · rcases hoff.rest with ⟨hzero, _⟩ | ⟨hlt, _, _⟩
        · exact Int.le_of_eq hzero.symm
        · exact Int.le_of_lt hlt

/-- **Every byte is accounted for, in both processes,** in every state of a run, exactly
when no call of `safe_tcp_recv_n` in it sees the end of the stream, or a failure,
behind bytes it has received. -/
theorem received_accounted_iff {push : Push Q} (hpush : Returns push) (proc : Proc W)
    {get : Mem → Int → Int32} (hget : Frames get) {max : Int} (hmax : 0 < max) (fd idx : Int32)
    (q : Q) (w : W) (ls : List ReadCall) :
    (Throughout (cliStep push get max fd idx) Accounted ls (takeInit q) ↔
        Along (cliStep push get max fd idx) EofAlone ls (takeInit q)) ∧
      (Throughout (svrStep proc get max fd) Accounted ls (takeInit w) ↔
        Along (svrStep proc get max fd) EofAlone ls (takeInit w)) := by
  constructor
  · unfold cliStep
    rw [handleCli_eq]
    apply throughout_iff_along TakeInv (fun _ h => h.ok)
    · exact fun l s t hs => takeStep_cases (framePass_delivers hpush fd idx) hget hmax hs
    · exact takeInit_inv q
  · apply throughout_iff_along TakeInv (fun _ h => h.ok)
    · exact fun l s t hs => takeStep_cases (svrPass_delivers proc fd) hget hmax hs
    · exact takeInit_inv w

instance (outs : List RecvRes) : Decidable (Alone outs) :=
  inferInstanceAs (Decidable (_ ∨ _ → _))

instance (l : ReadCall) (s : TakeSt Q) : Decidable (EofAlone l s) :=
  inferInstanceAs (Decidable (Alone l.outs))

/-- Messages of five bytes. -/
theorem frames_five : Frames fun _ _ => 5 := by
  intro mem n _
  show 0 < (5 : Int32).toInt ∧ (5 : Int32).toInt + blkHeadLen < 2 ^ 31
  decide

/-- Two messages come in two reads; then the peer has shut down. -/
def eofBehind : List ReadCall :=
  [⟨true, [.data [1, 2, 3, 4, 5, 6, 7], .eagain]⟩,
    ⟨true, [.data [8, 9], .eintr, .data [10], .eagain]⟩, ⟨true, [.eof]⟩]

/-- The end of the stream comes in a call of its own, in either process. -/
theorem received_accounted_iff_eofBehind :
    Throughout (cliStep ringPush (fun _ _ => 5) 64 7 0) Accounted eofBehind
        (takeInit (ringInit 128 (by decide))) ∧
      Throughout (svrStep (fun n _ _ _ => n + 1) (fun _ _ => 5) 64 7) Accounted eofBehind
        (takeInit 0) := by
  have hiff := received_accounted_iff (fun q _ data hb => ringPush_returns q hb data)
    (fun (n : Nat) _ _ _ => n + 1) frames_five (by decide : (0 : Int) < 64) 7 0
    (ringInit 128 (by decide)) 0 eofBehind
  constructor
  · exact hiff.1.mpr (by decide +kernel)
  · exact hiff.2.mpr (by decide +kernel)

/-- Bytes that were taken and are neither delivered nor in the buffer are lost. -/
theorem not_accounted_of_lost {step : ReadCall → TakeSt Q → Option (TakeSt Q)}
    {ls : List ReadCall} {s : TakeSt Q} (hsome : (exec step ls s).isSome)
    (hlost : ∀ t ∈ exec step ls s, t.tally.sent = [] ∧ t.tally.refused = false ∧
      t.conn.buff.rlen = 0 ∧ t.taken ≠ []) :
    ∃ t, exec step ls s = some t ∧ ¬ Accounted t := by
  rcases Option.isSome_iff_exists.mp hsome with ⟨t, hrun⟩
  rcases hlost t hrun with ⟨hsent, hrefused, hrlen, htaken⟩
  refine ⟨t, hrun, fun hok => ?_⟩
  have hall := (hok.2 hrefused).1
  rw [hsent, hrlen] at hall
  exact htaken hall

/-- A message and the end of the stream, seen in one call. -/
def eofTogether : List ReadCall := [⟨true, [.data [1, 2, 3, 4, 5], .eof]⟩]

/-- The master does not push it, and no worker hands it on. -/
theorem eofTogether_not_accounted :
    (∃ s, exec (cliStep mqPush (fun _ _ => 5) 64 7 0) eofTogether (takeInit (mqInit 128))
        = some s ∧ ¬ Accounted s) ∧
      ∃ s, exec (svrStep (fun n _ _ _ => n + 1) (fun _ _ => 5) 64 7) eofTogether (takeInit 0)
        = some s ∧ ¬ Accounted s := by
  constructor
  · exact not_accounted_of_lost (by decide +kernel) (by decide +kernel)
  · exact not_accounted_of_lost (by decide +kernel) (by decide +kernel)

end SServer.Net
