import SServer.Net.Header

/-!
# SServer.Net.ReadPath — why the master closes a client

The two ways into `handle_cli`, an event on the socket and the pass over the
readlist, against a socket that keeps what has arrived. The master closes the
connection whenever `handle_cli` returns `-1`. A closing is well founded when
the peer has shut down, `recv` has failed, the buffer could not be mapped, or
the queue was full.

The result: every closing of a run is well founded, if and only if no read with
room in the buffer finds the socket of a connected peer empty. Such a read is
what the readlist pass makes after a buffer that was filled exactly by the last
bytes there were.

* `handleRead_answers`: what `handle_read` returns, by what the socket holds.
* `closes_iff_no_empty_read`: the result, for any queue and any `get_msg_len`.
* `frameLoop_ring`: on a ring a call comes back: each pass takes bytes from the buffer or room
  from the ring.
* `zero_len_refused`: empty messages end in a refused push, and so in a closing with the fourth
  reason.
* `fillsExactly_closes`: a message that fills the buffer, and the pass over the readlist behind
  it.

The socket is the bytes it holds and whether the peer has shut down. A call that does not
return within its bound on the passes is no step of a run. However many passes it takes, it
returns `-1` behind `handle_read` for a refused push only (`frameLoop_noting`).
-/

namespace SServer.Net

open SServer.Lib SServer.Queue

/-! ## The socket -/

/-- A socket of the master: the bytes received and not read, and whether the
peer has shut down behind them. -/
structure Sock where
  pending : List UInt8
  fin : Bool

/-- An answer of `recv` that the socket can give, and what it leaves. `EINTR`
and a failure can come at any time. -/
def answer : RecvRes → Sock → Option Sock
  | .data bs, k =>
    if bs ≠ [] ∧ bs <+: k.pending then some { k with pending := k.pending.drop bs.length }
    else none
  | .eof, k => if k.pending = [] ∧ k.fin = true then some k else none
  | .eagain, k => if k.pending = [] ∧ k.fin = false then some k else none
  | .eintr, k | .err, k => some k

/-! ## Runs -/

variable {Q : Type}

/-- A queue with a note of whether a push was refused. -/
def noting (push : Push Q) : Push (Q × Bool) := fun (q, refused) b data =>
  (push q b data).map fun (r, q) => (r, q, refused || decide (r ≠ 0))

/-- A connection with its socket and its queue, whether it is open, and what
the last call of `handle_cli` met with: a failed `recv`, a failed `mmap`, a
refused push. -/
structure PathSt (Q : Type) where
  conn : RecvConn
  sock : Sock
  q : Q
  isOpen : Bool
  recvErr : Bool
  mapErr : Bool
  qFull : Bool

/-- A connection just accepted. -/
def pathInit (q : Q) : PathSt Q :=
  { conn := recvInit
    sock := { pending := [], fin := false }
    q := q
    isOpen := true
    recvErr := false
    mapErr := false
    qFull := false }

/-- Bytes arrive, the peer shuts down, an event on the socket is handled, or
the readlist is gone through; the latter two with what `mmap` and `recv` answer. -/
inductive PathLbl where
  | arrive (bs : List UInt8)
  | shutdown
  | edge (mapped : Bool) (outs : List RecvRes)
  | readlist (mapped : Bool) (outs : List RecvRes)

/-- The first `mmap` of the buffer is due and fails. -/
def mapFails (c : RecvConn) (mapped : Bool) : Bool :=
  match c.buff.rbf with
  | .null => !mapped
  | _ => false

/-- `handle_cli`, and `do_fd_close` when it returns `-1`. The answers are those
the socket gives to exactly the calls made. -/
def readCli (push : Push Q) (get : Mem → Int → Int32) (max : Int) (fd idx : Int32) (mapped : Bool)
    (outs : List RecvRes) (s : PathSt Q) : Option (PathSt Q) :=
  match exec answer outs s.sock, handleRead max mapped s.conn outs with
  | some sock, .ok (_, _, []) =>
    match handleCli (noting push) get max fd idx mapped outs s.conn (s.q, false) with
    | none => none
    | some (r, c, q, full) =>
      some
        { conn := c
          sock := sock
          q := q
          isOpen := decide (r ≠ -1)
          recvErr := decide (.err ∈ outs)
          mapErr := mapFails s.conn mapped
          qFull := full }
  | _, _ => none

/-- One step while the connection is open. -/
def pathStep (push : Push Q) (get : Mem → Int → Int32) (max : Int) (fd idx : Int32) (l : PathLbl)
    (s : PathSt Q) : Option (PathSt Q) :=
  if s.isOpen = true then
    match l with
    | .arrive bs =>
      if s.sock.fin = false then
        some { s with sock := { s.sock with pending := s.sock.pending ++ bs } }
      else none
    | .shutdown => some { s with sock := { s.sock with fin := true } }
    | .edge mapped outs => readCli push get max fd idx mapped outs s
    | .readlist mapped outs =>
      if s.conn.readlist = true then readCli push get max fd idx mapped outs s else none
  else none

/-- A closed connection was closed for one of the four reasons. -/
def CloseOk (s : PathSt Q) : Prop :=
  s.isOpen = false → s.sock.fin = true ∨ s.recvErr = true ∨ s.mapErr = true ∨ s.qFull = true

/-- `handle_read` gets as far as `recv`. -/
def Reads (max : Int) (c : RecvConn) (mapped : Bool) : Prop :=
  match c.buff.rbf with
  | .null => mapped = true ∧ 0 < max
  | _ => c.buff.rlen < max

/-- A `recv`, if there is one, finds bytes, the end of the stream or a failure. -/
def FindsAny (max : Int) (mapped : Bool) (outs : List RecvRes) (s : PathSt Q) : Prop :=
  Reads max s.conn mapped → s.sock.pending ≠ [] ∨ s.sock.fin = true ∨ .err ∈ outs

/-- The condition on a step: no read for nothing. -/
def NoEmptyRead (max : Int) : PathLbl → PathSt Q → Prop
  | .edge mapped outs, s | .readlist mapped outs, s => FindsAny max mapped outs s
  | _, _ => True

/-! ## What a read returns -/

/-- Answers do not change whether the peer has shut down. -/
theorem answers_fin {outs : List RecvRes} {k k' : Sock} (h : exec answer outs k = some k') :
    k'.fin = k.fin := by
  refine exec_invariant' (fun s => s.fin = k.fin) ?_ rfl h
  intro o s t hs hstep
  cases o with
  | data bs =>
    simp only [answer, Option.ite_none_right_eq_some] at hstep
    cases hstep.2
    exact hs
  | eof | eagain =>
    simp only [answer, Option.ite_none_right_eq_some] at hstep
    cases hstep.2
    exact hs
  | eintr | err =>
    cases hstep
    exact hs

/-- What the loop returns, by what the socket holds. -/
theorem recvLoop_answers {total : Int} : ∀ {outs : List RecvRes} {k k' : Sock}
    {got : List UInt8} {ret : Int} {got' : List UInt8}, got.length < total →
    exec answer outs k = some k' → recvLoop total got outs = .ok ⟨ret, got', []⟩ →
    ret = -1 ∧ .err ∈ outs ∨
      .err ∉ outs ∧ (ret = 0 ∧ (k.fin = true ∨ got = [] ∧ k.pending = []) ∨
        0 < ret ∧ (got ≠ [] ∨ k.pending ≠ [])) := by
  intro outs
  induction outs with
  | nil =>
    intro k k' got ret got' hlt _ h
    unfold recvLoop at h
    rw [if_neg (by omega)] at h
    cases h
  | cons o outs ih =>
    intro k k' got ret got' hlt hsock h
    rcases exec_cons_some.mp hsock with ⟨k₁, hk₁, hrest⟩
    unfold recvLoop at h
    rw [if_neg (by omega)] at h
    cases o with
    | data bs =>
      simp only [answer, Option.ite_none_right_eq_some] at hk₁
      rcases hk₁ with ⟨⟨hbs, hpre⟩, heq⟩
      have hpend : k.pending ≠ [] := by
        intro hnil
        rw [hnil] at hpre
        exact hbs (List.prefix_nil.mp hpre)
      simp only at h
      by_cases hbad : bs = [] ∨ total < got.length + bs.length
      · rw [if_pos hbad] at h
        cases h
      rw [if_neg hbad] at h
      by_cases hfull : total ≤ (got ++ bs).length
      · -- the last answer of the call
        unfold recvLoop at h
        rw [if_pos hfull] at h
        cases h
        refine Or.inr ⟨by simp, Or.inr ⟨?_, Or.inr hpend⟩⟩
        have hlen := List.length_pos_iff.mpr hbs
        rw [List.length_append]
        omega
      · -- behind bytes it returns `0` only at the end of the stream
        cases heq
        rcases ih (by omega) hrest h with ⟨hret, herr⟩ | ⟨herr, hcase⟩
        · exact Or.inl ⟨hret, List.mem_cons_of_mem _ herr⟩
        · refine Or.inr ⟨by simpa using herr, ?_⟩
          rcases hcase with ⟨hret, hfin | ⟨hnil, _⟩⟩ | ⟨hret, _⟩
          · exact Or.inl ⟨hret, Or.inl hfin⟩
          · exact absurd (List.append_eq_nil_iff.mp hnil).2 hbs
          · exact Or.inr ⟨hret, Or.inr hpend⟩
    | eof =>
      simp only [answer, Option.ite_none_right_eq_some] at hk₁
      cases h
      exact Or.inr ⟨by simp, Or.inl ⟨rfl, Or.inl hk₁.1.2⟩⟩
    | eintr =>
      cases hk₁
      rcases ih hlt hrest h with ⟨hret, herr⟩ | ⟨herr, hcase⟩
      · exact Or.inl ⟨hret, List.mem_cons_of_mem _ herr⟩
      · exact Or.inr ⟨by simpa using herr, hcase⟩
    | eagain =>
      simp only [answer, Option.ite_none_right_eq_some] at hk₁
      cases h
      refine Or.inr ⟨by simp, ?_⟩
      cases got with
      | nil => exact Or.inl ⟨rfl, Or.inr ⟨rfl, hk₁.1.1⟩⟩
      | cons b bs => exact Or.inr ⟨by simp, Or.inl (by simp)⟩
    | err =>
      cases h
      exact Or.inl ⟨rfl, by simp⟩

/-- **What `handle_read` returns**, by what the socket holds: `-1` when the
mapping fails, `0` when the buffer is full, and else `-1` exactly when `recv`
fails, the peer has shut down, or there is nothing to read. -/
theorem handleRead_answers {max : Int} {mapped : Bool} {c c' : RecvConn} {outs : List RecvRes}
    {k k' : Sock} {r : Int} (hsock : exec answer outs k = some k')
    (h : handleRead max mapped c outs = .ok (r, c', [])) :
    r = -1 ∧ mapFails c mapped = true ∧ ¬ Reads max c mapped ∨
      mapFails c mapped = false ∧ (r = 0 ∧ outs = [] ∧ ¬ Reads max c mapped ∨
        Reads max c mapped ∧ (r = -1 ∧ .err ∈ outs ∨
          .err ∉ outs ∧ (r = -1 ∧ (k.fin = true ∨ k.pending = []) ∨
            0 < r ∧ k.pending ≠ []))) := by
  -- behind a mapping that is there, it is what `recv` has found
  have hread : ∀ (mem : Mem) (c : RecvConn), readMapped max mem c outs = .ok (r, c', []) →
      r = 0 ∧ outs = [] ∧ ¬ c.buff.rlen < max ∨
        c.buff.rlen < max ∧ (r = -1 ∧ .err ∈ outs ∨
          .err ∉ outs ∧ (r = -1 ∧ (k.fin = true ∨ k.pending = []) ∨
            0 < r ∧ k.pending ≠ [])) := by
    intro mem c h
    rcases readMapped_cases h with
      ⟨hfull, hr, _, hrest⟩ | ⟨hroom, total, rd, _, hpos, _, hrecv, hrest, _, hcase⟩
    · exact Or.inl ⟨hr, hrest.symm, by omega⟩
    refine Or.inr ⟨hroom, ?_⟩
    rcases rd with ⟨ret, got, rest⟩
    simp only at hrest hcase
    rw [← hrest] at hrecv
    rcases recvLoop_answers (by simp; omega) hsock hrecv with
      ⟨hret, herr⟩ | ⟨herr, ⟨hret, hwhy⟩ | ⟨hret, hwhy⟩⟩
    · rcases hcase with ⟨hpos, _⟩ | ⟨_, hr, _⟩
      · omega
      · exact Or.inl ⟨hr, herr⟩
    · rcases hcase with ⟨hpos, _⟩ | ⟨_, hr, _⟩
      · omega
      · refine Or.inr ⟨herr, Or.inl ⟨hr, ?_⟩⟩
        rcases hwhy with hfin | ⟨_, hnil⟩
        · exact Or.inl hfin
        · exact Or.inr hnil
    · rcases hcase with ⟨hpos, hr, _⟩ | ⟨hneg, _⟩
      · refine Or.inr ⟨herr, Or.inr ⟨by omega, ?_⟩⟩
        rcases hwhy with hgot | hpend
        · exact absurd rfl hgot
        · exact hpend
      · omega
  unfold mapFails Reads
  rcases handleRead_cases h with
    ⟨hnull, ⟨rfl, hr, _, _⟩ | ⟨rfl, hok⟩⟩ | ⟨hfailed, hok⟩ | ⟨mem, hmem, hok⟩
  · rw [hnull]
    exact Or.inl ⟨hr, rfl, by simp⟩
  · rw [hnull]
    right
    rcases hread _ _ hok with ⟨hr, houts, hno⟩ | ⟨hroom, hcase⟩
    · exact ⟨rfl, Or.inl ⟨hr, houts, fun hyes => hno hyes.2⟩⟩
    · exact ⟨rfl, Or.inr ⟨⟨rfl, hroom⟩, hcase⟩⟩
  · rw [hfailed]
    right
    -- to `MAP_FAILED` only a failure of `recv` is an answer
    rcases readFailed_cases hok with
      ⟨_, ⟨hfull, hr, hrest⟩ | ⟨hroom, hr, total, ⟨ret, got, rest⟩, hpos, hrecv, hret, hrest⟩⟩
    · exact ⟨rfl, Or.inl ⟨hr, hrest.symm, fun hyes => by omega⟩⟩
    · simp only at hret hrest
      rw [← hrest] at hrecv
      rcases recvLoop_answers (by simp; omega) hsock hrecv with ⟨_, herr⟩ | ⟨_, hcase⟩
      · exact ⟨rfl, Or.inr ⟨hroom, Or.inl ⟨hr, herr⟩⟩⟩
      · omega
  · rw [hmem]
    exact Or.inr ⟨rfl, hread _ _ hok⟩

/-! ## What a call returns -/

/-- A push with nothing refused before tells of itself. -/
theorem noting_some {push : Push Q} {q : Q} {b : MemBlock} {data : Mem} {r : Int} {q' : Q × Bool}
    (h : noting push (q, false) b data = some (r, q')) : q'.2 = decide (r ≠ 0) := by
  unfold noting at h
  rw [Option.map_eq_some_iff] at h
  rcases h with ⟨⟨r₁, q₁⟩, _, heq⟩
  cases heq
  exact Bool.false_or _

/-- The loop returns `-1` when a push was refused, and `0` when none was, whatever the bound
on its passes. -/
theorem frameLoop_noting {push : Push Q} {get : Mem → Int → Int32} {fd idx : Int32} :
    ∀ {n : Nat} {buff buff' : FdBuff} {tmp : Int} {q q' : Q} {r : Int} {full : Bool},
      frameLoop (noting push) get fd idx n buff tmp (q, false) = some (r, buff', q', full) →
      r = 0 ∧ full = false ∨ r = -1 ∧ full = true := by
  intro n
  induction n with
  | zero =>
    intro buff buff' tmp q q' r full h
    cases h
  | succ n ih =>
    intro buff buff' tmp q q' r full h
    unfold frameLoop at h
    rcases framePass_cases (noting push) fd idx (get (buff.rbf.mem.ptr tmp) buff.rlen) buff tmp
        (q, false) with
      ⟨_, hpass⟩ | ⟨_, ⟨_, hpass⟩ | ⟨r₁, q₁, hpush, hr, hpass⟩ |
        ⟨⟨q₁, full₁⟩, hpush, ⟨_, hpass⟩ | ⟨_, hpass⟩⟩⟩
    · rw [hpass] at h
      cases h
      exact Or.inl ⟨rfl, rfl⟩
    · rw [hpass] at h
      cases h
    · -- refused
      have hfull := noting_some hpush
      rw [hpass] at h
      cases h
      exact Or.inr ⟨rfl, hfull.trans (decide_eq_true hr)⟩
    · have hfull : full₁ = false := noting_some hpush
      rw [hpass, hfull] at h
      exact ih h
    · have hfull : full₁ = false := noting_some hpush
      rw [hpass, hfull] at h
      cases h
      exact Or.inl ⟨rfl, rfl⟩

/-! ## Closings -/

variable {push : Push Q} {get : Mem → Int → Int32} {max : Int} {fd idx : Int32}

/-- After a call of `handle_cli` the connection is open or closed for a reason,
unless the call read an empty socket for nothing. -/
theorem readCli_closes {mapped : Bool} {outs : List RecvRes} {s t : PathSt Q}
    (h : readCli push get max fd idx mapped outs s = some t) :
    FindsAny max mapped outs s ∧ CloseOk t ∨ ¬ FindsAny max mapped outs s ∧ ¬ CloseOk t := by
  unfold readCli at h
  cases hsock : exec answer outs s.sock with
  | none =>
    rw [hsock] at h
    cases h
  | some sock =>
  have hfin := answers_fin hsock
  cases hread : handleRead max mapped s.conn outs with
  | error e =>
    rw [hsock, hread] at h
    cases h
  | ok out =>
  rcases out with ⟨r, c, _ | ⟨o, rest⟩⟩
  swap
  · rw [hsock, hread] at h
    cases h
  rw [hsock, hread] at h
  simp only [handleCli, hread] at h
  -- the loop closes for a refused push only
  have hloop : r ≠ -1 → CloseOk t := by
    intro hr
    rw [if_neg hr] at h
    cases hframe : frameLoop (noting push) get fd idx (passBound c.buff) c.buff 0
        (s.q, false) with
    | none =>
      rw [hframe] at h
      cases h
    | some out =>
      rcases out with ⟨r₁, buff, q, full⟩
      rw [hframe] at h
      cases h
      intro hclosed
      rcases frameLoop_noting hframe with ⟨hzero, _⟩ | ⟨_, hfull⟩
      · rw [hzero] at hclosed
        cases hclosed
      · exact Or.inr (Or.inr (Or.inr hfull))
  unfold FindsAny
  rcases handleRead_answers hsock hread with
    ⟨hr, hmap, hno⟩ | ⟨hmap, ⟨hr, houts, hno⟩ | ⟨hyes, hcase⟩⟩
  · -- the mapping has failed
    rw [if_pos hr] at h
    cases h
    exact Or.inl ⟨fun hyes => absurd hyes hno, fun _ => Or.inr (Or.inr (Or.inl hmap))⟩
  · -- the buffer was full
    exact Or.inl ⟨fun hyes => absurd hyes hno, hloop (by omega)⟩
  rcases hcase with ⟨hr, herr⟩ | ⟨herr, ⟨hr, hwhy⟩ | ⟨hr, hpend⟩⟩
  · -- `recv` has failed
    rw [if_pos hr] at h
    cases h
    exact Or.inl ⟨fun _ => Or.inr (Or.inr herr), fun _ => Or.inr (Or.inl (decide_eq_true herr))⟩
  · rw [if_pos hr] at h
    cases h
    by_cases hshut : s.sock.fin = true
    · exact Or.inl ⟨fun _ => Or.inr (Or.inl hshut), fun _ => Or.inl (hfin.trans hshut)⟩
    · -- nothing to read, and the peer is there
      have hnil : s.sock.pending = [] := by
        rcases hwhy with hyes' | hnil
        · exact absurd hyes' hshut
        · exact hnil
      right
      constructor
      · intro hfinds
        rcases hfinds hyes with hpend | hyes' | hmem
        · exact hpend hnil
        · exact hshut hyes'
        · exact herr hmem
      · intro hok
        rcases hok rfl with hyes' | hmem | hmapped | hfull
        · exact hshut (hfin.symm.trans hyes')
        · exact herr (of_decide_eq_true hmem)
        · rw [hmap] at hmapped
          cases hmapped
        · cases hfull
  · -- something was read
    exact Or.inl ⟨fun _ => Or.inl hpend, hloop (by omega)⟩

/-- A step while the connection is open closes it for a reason or not at all,
unless it reads an empty socket for nothing. -/
theorem pathStep_closes (l : PathLbl) (s t : PathSt Q) (_ : CloseOk s)
    (hstep : pathStep push get max fd idx l s = some t) :
    NoEmptyRead max l s ∧ CloseOk t ∨ ¬ NoEmptyRead max l s ∧ ¬ CloseOk t := by
  unfold pathStep at hstep
  by_cases hopen : s.isOpen = true
  swap
  · rw [if_neg hopen] at hstep
    cases hstep
  rw [if_pos hopen] at hstep
  have hstill : ∀ s' : PathSt Q, s'.isOpen = s.isOpen → CloseOk s' := by
    intro s' heq hclosed
    rw [heq, hopen] at hclosed
    cases hclosed
  cases l with
  | arrive bs =>
    simp only [Option.ite_none_right_eq_some] at hstep
    cases hstep.2
    exact Or.inl ⟨trivial, hstill _ rfl⟩
  | shutdown =>
    cases hstep
    exact Or.inl ⟨trivial, hstill _ rfl⟩
  | edge mapped outs => exact readCli_closes hstep
  | readlist mapped outs =>
    simp only [Option.ite_none_right_eq_some] at hstep
    exact readCli_closes hstep.2

/-- **Closings of the read path.** In every run, each closing has one of the
four reasons, if and only if no read with room in the buffer finds the socket
of a connected peer empty. -/
theorem closes_iff_no_empty_read (push : Push Q) (get : Mem → Int → Int32) (max : Int)
    (fd idx : Int32) (q : Q) (ls : List PathLbl) :
    Throughout (pathStep push get max fd idx) CloseOk ls (pathInit q) ↔
      Along (pathStep push get max fd idx) (NoEmptyRead max) ls (pathInit q) :=
  throughout_iff_along _ (fun _ => id) pathStep_closes fun h => by cases h

/-! ## Empty messages -/

/-- **A call on a ring returns** when no length it is told is negative or leaves no room for
the block header in an int: each pass takes bytes from the buffer or room from the ring. -/
theorem frameLoop_ring (hget : ∀ mem n, GoodLen n (get mem n).toInt) : ∀ {n : Nat} {q : MemQueue}
    {bs : List Blk} {buff : FdBuff} {tmp : Int}, Rep q bs → 0 ≤ buff.rlen →
    GoodLen buff.rlen buff.msglen → buff.rlen + q.len < n + blkHeadLen * bs.length →
      frameLoop mqPush get fd idx n buff tmp q ≠ none := by
  intro n
  induction n with
  | zero =>
    intro q bs buff tmp hrep h0 _ hn
    have hlt := hrep.length_lt
    omega
  | succ n ih =>
    intro q bs buff tmp hrep h0 hmsg hn
    have hgood : GoodLen buff.rlen (lenOf (get (buff.rbf.mem.ptr tmp) buff.rlen) buff) := by
      unfold lenOf
      split
      · exact hget _ _
      · exact hmsg
    unfold frameLoop
    generalize get (buff.rbf.mem.ptr tmp) buff.rlen = v at hgood ⊢
    rcases framePass_cases mqPush fd idx v buff tmp q with
      ⟨_, hpass⟩ | ⟨hle, hcase⟩
    · rw [hpass]
      simp
    have hlen : (raw2blk fd idx (buff.ask v)).len.toInt = (buff.ask v).msglen + blkHeadLen :=
      raw2blk_len_good fd idx hgood.1 (hgood.2 hle)
    have hb : (raw2blk fd idx (buff.ask v)).Pushable := by
      refine ⟨?_, by simp [raw2blk, MemBlockType.code]⟩
      rw [hlen, ask_msglen]
      have hnonneg := hgood.1
      omega
    rcases mqPush_spec hrep hb (buff.rbf.mem.ptr tmp) with ⟨r, q₁, hpush, hsame, hres⟩
    rcases hcase with ⟨hnone, _⟩ | ⟨r', q', _, _, hpass⟩ | ⟨q', hsome, ⟨_, hpass⟩ | ⟨_, hpass⟩⟩
    · cases hnone.symm.trans hpush
    · rw [hpass]
      simp
    · -- the block takes room from the ring
      cases hsome.symm.trans hpush
      rcases hres with ⟨_, hrep'⟩ | ⟨hno, _⟩
      swap
      · cases hno
      have hrest := consume_rlen hgood.1 hle
      have hnonneg := hgood.1
      rw [hpass]
      refine ih hrep' (by omega) ?_ ?_
      · rw [consume_msglen]
        exact ⟨Int.le_refl 0, fun _ => by simp [blkHeadLen]⟩
      · rw [hrest, hsame, List.length_append, List.length_singleton]
        simp only [blkHeadLen] at hn ⊢
        omega
    · rw [hpass]
      simp

/-- A call that goes by the length zero does not return `0`. -/
theorem frameLoop_zero : ∀ {n : Nat} {buff buff' : FdBuff} {tmp r : Int} {q q' : Q},
    0 < buff.rlen → buff.msglen = 0 →
      frameLoop push (fun _ _ => 0) fd idx n buff tmp q = some (r, buff', q') → r = -1 := by
  intro n
  induction n with
  | zero =>
    intro buff buff' tmp r q q' _ _ h
    cases h
  | succ n ih =>
    intro buff buff' tmp r q q' hrlen hmsg h
    have hlen : lenOf 0 buff = 0 := if_pos ⟨hmsg, hrlen⟩
    have hrest : (buff.ask 0).consume.rlen = buff.rlen := by
      rw [consume_rlen (by omega) (by omega), hlen, Int.sub_zero]
    unfold frameLoop at h
    rcases framePass_cases push fd idx 0 buff tmp q with
      ⟨hshort, _⟩ | ⟨_, ⟨_, hpass⟩ | ⟨r', q₁, _, _, hpass⟩ | ⟨q₁, _, ⟨_, hpass⟩ | ⟨hend, _⟩⟩⟩
    · omega
    · rw [hpass] at h
      cases h
    · rw [hpass] at h
      cases h
      rfl
    · rw [hpass] at h
      exact ih (by omega) rfl h
    · omega

/-- **Empty messages end in a refused push.** On a ring whose length is an int, a call that
goes by the length zero returns `-1`, so that the connection is closed. -/
theorem zero_len_refused (fd idx : Int32) {q : MemQueue} {bs : List Blk} (hrep : Rep q bs)
    (hint : q.len < 2 ^ 31) {buff : FdBuff} (hrlen : 0 < buff.rlen) (hmsg : buff.msglen = 0)
    (tmp : Int) : ∃ buff' q',
      frameLoop mqPush (fun _ _ => 0) fd idx (passBound buff) buff tmp q =
        some (-1, buff', q') := by
  have hzero : ∀ n : Int, GoodLen n 0 := fun _ => ⟨Int.le_refl 0, fun _ => by simp [blkHeadLen]⟩
  have hget : ∀ (mem : Mem) (n : Int), GoodLen n ((fun _ _ => 0 : Mem → Int → Int32) mem n).toInt :=
    fun _ n => hzero n
  have hret : frameLoop mqPush (fun _ _ => 0) fd idx (passBound buff) buff tmp q ≠ none := by
    refine frameLoop_ring hget hrep (Int.le_of_lt hrlen) (hmsg ▸ hzero _) ?_
    unfold passBound
    simp only [blkHeadLen]
    omega
  rcases Option.ne_none_iff_exists'.mp hret with ⟨⟨r, buff', q'⟩, heq⟩
  rw [heq, frameLoop_zero hrlen hmsg heq]
  exact ⟨buff', q', rfl⟩

/-- Four zero bytes that are read as a length: the master pushes empty messages until its
queue refuses one, and closes the connection for that reason. -/
example : ((exec (pathStep mqPush getMsgLen 64 7 0)
    [.arrive [0, 0, 0, 0], .edge true [.data [0, 0, 0, 0], .eagain]] (pathInit (mqInit 64))).map
      fun s => (s.isOpen, s.qFull)) = some (false, true) := by decide +kernel

/-- A message of eight bytes arrives, for a buffer of eight. -/
def fillsExactly : List PathLbl :=
  [.arrive [8, 0, 0, 0, 1, 2, 3, 4], .edge true [.data [8, 0, 0, 0, 1, 2, 3, 4]],
    .readlist true [.eagain]]

/-- The pass over the readlist finds the socket empty, and the connection is
closed although the peer is there and nothing has failed. -/
theorem fillsExactly_closes :
    ∃ s, exec (pathStep mqPush getMsgLen 8 7 0) fillsExactly (pathInit (mqInit 64)) = some s ∧
      s.isOpen = false ∧ ¬ CloseOk s := by
  have hsome : (exec (pathStep mqPush getMsgLen 8 7 0) fillsExactly
      (pathInit (mqInit 64))).isSome := by
    decide +kernel
  have hfacts : ∀ s ∈ exec (pathStep mqPush getMsgLen 8 7 0) fillsExactly (pathInit (mqInit 64)),
      s.isOpen = false ∧ s.sock.fin = false ∧ s.recvErr = false ∧ s.mapErr = false ∧
        s.qFull = false := by
    decide +kernel
  rcases Option.isSome_iff_exists.mp hsome with ⟨s, hrun⟩
  rcases hfacts s hrun with ⟨hclosed, hfin, herr, hmap, hfull⟩
  refine ⟨s, hrun, hclosed, fun hok => ?_⟩
  have hreason := hok hclosed
  simp [hfin, herr, hmap, hfull] at hreason

end SServer.Net
