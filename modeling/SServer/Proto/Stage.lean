import SServer.Proto.Life
import SServer.Proto.Service

/-!
# SServer.Proto.Stage — the service of a connection, read from the worker

Two refinements on the way from a worker to the services of its connections. A
worker's step is a move on what counts of the worker: the blocks it has not
looked at, and the sessions it holds and is not about to remove. And a move is a
step of the service of each connection, whose stage can be read from the blocks
and the held session.

* `WorkStep.moved`: a step of a worker is a move, or changes nothing that counts.
* `Stage.moved`: a move is a step of the service of each connection, or none.

The stage of a service is read off the blocks ahead and the session held, so nothing is added to
the state of the system.
-/

namespace SServer.Proto

open SServer.Lib SServer.Queue SServer.Worker

/-! ## Moves of a worker -/

/-- The session of a descriptor, unless its `on_cli_closed` is running. -/
def Work.held (w : Work) (n : Int32) : Option Sess :=
  if n ∈ w.closing ∨ w.phase = .inClosed n then none else getFd w.fds n

/-- What a worker can do to its blocks and sessions, and what is seen of it. -/
inductive Moved : List Block → (Int32 → Option Sess) → List Ev →
    List Block → (Int32 → Option Sess) → Prop where
  | stay (bs : List Block) (h : Int32 → Option Sess) : Moved bs h [] bs h
  | skip (blk : Block) (bs : List Block) (h : Int32 → Option Sess) (htype : blk.type ≠ .blkOpen)
      (hnone : h blk.fd = none) : Moved (blk :: bs) h [] bs h
  | doOpen (blk : Block) (bs : List Block) (h : Int32 → Option Sess)
      (htype : blk.type = .blkOpen) (hnone : h blk.fd = none) :
      Moved (blk :: bs) h [.opened blk.toSess] bs (Function.update h blk.fd (some blk.toSess))
  | doMsg (blk : Block) (bs : List Block) (h : Int32 → Option Sess) (x : Sess)
      (htype : blk.type = .blkData) (hx : h blk.fd = some x) (hconn : x.conn = blk.conn) :
      Moved (blk :: bs) h [.proc blk.conn blk.data x] bs h
  | doClose (blk : Block) (bs : List Block) (h : Int32 → Option Sess) (x : Sess)
      (htype : blk.type = .blkClose) (hx : h blk.fd = some x) (hconn : x.conn = blk.conn) :
      Moved (blk :: bs) h [.onClosed x] bs (Function.update h blk.fd none)
  | closeCli (bs : List Block) (h : Int32 → Option Sess) (fd : Int32) (x : Sess)
      (hx : h fd = some x) : Moved bs h [.onClosed x] bs (Function.update h fd none)

/-- A move shows only the marks of its block and its session. -/
theorem Moved.seen {P : Int32 → Option Conn → Prop} {bs bs' : List Block}
    {sess sess' : Int32 → Option Sess} {evs : List Ev} (h : Moved bs sess evs bs' sess')
    (hbs : ∀ b ∈ bs, P b.fd b.conn) (hsess : ∀ n x, sess n = some x → P n x.conn) :
    ∀ e ∈ evs, ∃ fd, P fd e.conn := by
  intro e he
  cases h with
  | stay => cases he
  | skip => cases he
  | doOpen blk =>
    rw [List.mem_singleton.mp he]
    exact ⟨blk.fd, hbs blk List.mem_cons_self⟩
  | doMsg blk =>
    rw [List.mem_singleton.mp he]
    exact ⟨blk.fd, hbs blk List.mem_cons_self⟩
  | doClose blk _ _ x _ hx =>
    rw [List.mem_singleton.mp he]
    exact ⟨blk.fd, hsess blk.fd x hx⟩
  | closeCli _ _ fd x hx =>
    rw [List.mem_singleton.mp he]
    exact ⟨fd, hsess fd x hx⟩

/-- No `on_cli_closed` is running. -/
def Work.Quiet (w : Work) : Prop := w.closing = [] ∧ ∀ n, w.phase ≠ .inClosed n

/-- Outside of `on_cli_closed` all sessions in the table are held. -/
theorem Work.Quiet.held {w : Work} (h : w.Quiet) : w.held = fun n => getFd w.fds n := by
  funext n
  unfold Work.held
  rw [h.1]
  simp [h.2 n]

/-- `on_cli_closed` does not call `close_cli`. -/
def WorkLbl.Calm : WorkLbl → Work → Prop
  | .closeCli _ _, w => w.Quiet
  | _, _ => True

/-- `close_cli` outside of `on_cli_closed`. -/
theorem closeCli_moved {i fd : Int32} {pushed : Bool} {w w' : Work} {evs : List Ev}
    (hquiet : w.Quiet) (hclose : closeCli i fd pushed w = some (w', evs)) :
    Moved w.pending w.held evs w'.pending w'.held := by
  rcases closeCli_cases hclose with ⟨_, hw, hevs⟩ | ⟨x, hx, hevs, hw⟩
  · rw [hw, hevs]
    exact Moved.stay _ _
  · rcases pushSq_frame w (closeBlock i fd x.conn) pushed with ⟨hrq, hphase, _, hfds, _⟩
    have hpending : w'.pending = w.pending := by
      rw [hw]
      unfold Work.pending
      simp only [hrq, hphase]
    have hheld : w'.held = Function.update w.held fd none := by
      funext n
      rw [hquiet.held, hw]
      unfold Work.held
      simp only [hphase, hfds, hquiet.1]
      by_cases hn : n = fd
      · rw [hn, Function.update_self]
        simp
      · rw [Function.update_of_ne hn]
        simp [hn, hquiet.2 n]
    rw [hevs, hpending, hheld]
    refine Moved.closeCli _ _ fd x ?_
    rw [hquiet.held]
    exact hx

/-- Looking at the oldest block. -/
theorem handleBlock_moved {w : Work} {o : Int32 → Option Conn} (h : Follows w o) {blk : Block}
    {rest : List Block} (hidle : w.phase = .idle) (hclosing : w.closing = [])
    (hrq : w.rq = blk :: rest) (hmark : ∀ fd x, getFd w.fds fd = some x → x.conn ≠ none)
    (pushed : Bool) :
    Moved w.pending w.held (handleBlock blk pushed w).2 (handleBlock blk pushed w).1.pending
      (handleBlock blk pushed w).1.held := by
  rcases h.oldest hidle hrq blk.fd with ⟨cur, cur', hold⟩
  have hsess := fun x hx => And.intro (hold.sess x hx) (hmark blk.fd x hx)
  -- between two blocks the worker holds what its table says
  have hquiet : w.Quiet := ⟨hclosing, fun n => by simp [hidle]⟩
  have hpending : w.pending = blk :: w.rq.tail := by
    unfold Work.pending
    rw [if_pos hidle, hrq, List.tail_cons]
  rw [hpending, (handleBlock_looked pushed hold.step hsess).pending, hquiet.held]
  rcases handleBlock_cases pushed hold.step hsess with
    ⟨hnone, htype, _, _, heq⟩ | ⟨hnone, htype, heq⟩ |
      ⟨x, hx, hconn, ⟨htype, _, heq⟩ | ⟨htype, _, heq⟩⟩
  · have hafter : (handleBlock blk pushed w).1.Quiet := by
      rw [heq]
      exact ⟨hclosing, fun n => by simp⟩
    rw [hafter.held, heq]
    exact Moved.doOpen blk _ _ htype hnone
  · have hafter : (handleBlock blk pushed w).1.Quiet := by
      rw [heq]
      exact ⟨hclosing, fun n => by simp⟩
    rw [hafter.held, heq]
    exact Moved.skip blk _ _ htype hnone
  · have hafter : (handleBlock blk pushed w).1.Quiet := by
      rw [heq]
      exact ⟨hclosing, fun n => by simp⟩
    rw [hafter.held, heq]
    exact Moved.doMsg blk _ _ x htype hx hconn
  · -- `do_blk_close` takes the entry out: the session is held no more
    have hheld : (handleBlock blk pushed w).1.held
        = Function.update (fun n => getFd w.fds n) blk.fd none := by
      funext n
      rw [heq]
      unfold Work.held
      simp only [hclosing]
      by_cases hn : n = blk.fd
      · rw [hn, Function.update_self]
        simp
      · rw [Function.update_of_ne hn]
        simp [Ne.symm hn]
    rw [hheld, heq]
    exact Moved.doClose blk _ _ x htype hx hconn

/-- The return of an `on_cli_closed` removes a session that is not held. -/
theorem held_removeFd {w w' : Work} {fd : Int32} (hfds : w'.fds = removeFd w.fds fd)
    (hbefore : fd ∈ w.closing ∨ w.phase = .inClosed fd)
    (hothers : ∀ n, n ≠ fd →
      (n ∈ w'.closing ∨ w'.phase = .inClosed n ↔ n ∈ w.closing ∨ w.phase = .inClosed n)) :
    w'.held = w.held := by
  funext n
  unfold Work.held
  by_cases hn : n = fd
  · rw [hn, if_pos hbefore, hfds]
    simp [getFd, removeFd]
  · simp only [hothers n hn, hfds, getFd, removeFd, Function.update_of_ne hn]

/-- Between a callback and the next block, only the phase moves on. -/
theorem handled_view {w : Work} {fd : Int32} (hphase : w.phase = .inProc fd) :
    ({ w with phase := .handled } : Work).pending = w.pending ∧
      ({ w with phase := .handled } : Work).held = w.held := by
  constructor
  · simp [Work.pending, hphase]
  · funext n
    simp [Work.held, hphase]

/-- **A worker's step is a move.** -/
theorem WorkStep.moved {i : Int32} {l : WorkLbl} {w w' : Work} {evs : List Ev}
    {o : Int32 → Option Conn} (hstep : WorkStep i w l w' evs) (h : Follows w o)
    (hmark : ∀ fd x, getFd w.fds fd = some x → x.conn ≠ none) (hl : l.Calm w) :
    Moved w.pending w.held evs w'.pending w'.held := by
  cases hstep with
  | recv pushed hidle hclosing _ hrq => exact handleBlock_moved h hidle hclosing hrq hmark pushed
  | recvGarbled blk pushed _ _ hgarbled =>
    -- a worker that is in touch has no garbled `rq`
    rw [h.sane] at hgarbled
    cases hgarbled
  | procRet _ hphase =>
    rcases handled_view hphase with ⟨hpending, hheld⟩
    rw [hpending, hheld]
    exact Moved.stay _ _
  | procErr pushed _ hphase hclosing hclose =>
    rcases handled_view hphase with ⟨hpending, hheld⟩
    rw [← hpending, ← hheld]
    exact closeCli_moved ⟨hclosing, fun n => by simp⟩ hclose
  -- a session that is being closed is held no more, so its removal is nothing new
  | @cliRet fd rest hclosing =>
    have hheld : ({ w with fds := removeFd w.fds fd, closing := rest } : Work).held
        = w.held := by
      refine held_removeFd rfl (Or.inl ?_) fun n hn => ?_
      · rw [hclosing]
        exact List.mem_cons_self
      · simp [hclosing, hn]
    rw [hheld]
    exact Moved.stay _ _
  | @blkRet fd _ hphase =>
    have hpending : w.pending = w.rq.tail := by simp [Work.pending, hphase]
    have hheld : ({ w with fds := removeFd w.fds fd, phase := .handled } : Work).held
        = w.held := by
      refine held_removeFd rfl (Or.inr hphase) fun n hn => ?_
      simp [hphase, Ne.symm hn]
    rw [hpending, hheld]
    exact Moved.stay _ _
  | pop hphase =>
    rw [h.sane]
    have hpending : w.pending = w.rq.tail := by simp [Work.pending, hphase]
    have hheld : ({ w with phase := .idle, rq := w.rq.tail } : Work).held = w.held := by
      funext n
      simp [Work.held, hphase]
    rw [hpending, ← hheld]
    exact Moved.stay _ _
  | sendToCli msg pushed =>
    cases pushed with
    | false => exact Moved.stay _ _
    | true => exact Moved.stay _ _
  | closeCli pushed hclose => exact closeCli_moved hl hclose

/-! ## The stage of a connection -/

/-- The session that is made of the `BLK_OPEN` of a connection. -/
def Accepted.toSess (a : Accepted) (c : Conn) : Sess := (a.openBlock c).toSess

/-- The session of a `BLK_OPEN` has its mark. -/
@[simp] theorem toSess_conn (blk : Block) : blk.toSess.conn = blk.conn := rfl

/-- No `BLK_OPEN` of the connection is among the blocks. -/
def NoOpen (c : Conn) (bs : List Block) : Prop := ∀ b ∈ bs, b.type = .blkOpen → b.conn ≠ some c

/-- The messages of the connection among the blocks. -/
def dataOf (c : Conn) (bs : List Block) : List (List UInt8) :=
  bs.filterMap fun b => if b.type = .blkData ∧ b.conn = some c then some b.data else none

/-- What the blocks and the held session tell of the service of a connection: its
`BLK_OPEN` is to come, its session is held, or neither. -/
def Stage (c : Conn) (a : Accepted) (bs : List Block) (held : Option Sess) : Service → Prop
  | .waiting todo => (∀ x ∈ held, x.conn ≠ some c) ∧
      ∃ pre post, bs = pre ++ a.openBlock c :: post ∧ (∀ b ∈ pre, b.conn ≠ some c) ∧
        NoOpen c post ∧ dataOf c post = todo
  | .live todo => held = some (a.toSess c) ∧ NoOpen c bs ∧ dataOf c bs = todo
  | .ended => (∀ x ∈ held, x.conn ≠ some c) ∧ NoOpen c bs

variable {c : Conn} {a : Accepted} {blk : Block} {bs : List Block} {held : Option Sess}
  {st : Service}

/-- A block less. -/
theorem NoOpen.tail (h : NoOpen c (blk :: bs)) : NoOpen c bs :=
  fun b hb => h b (List.mem_cons_of_mem blk hb)

/-- A block more that opens something else. -/
theorem NoOpen.concat (h : NoOpen c bs) (hblk : blk.type = .blkOpen → blk.conn ≠ some c) :
    NoOpen c (bs ++ [blk]) := by
  intro b hb
  rcases List.mem_append.mp hb with hold | hnew
  · exact h b hold
  · rw [List.mem_singleton.mp hnew]
    exact hblk

/-- The payloads of two lists of blocks. -/
theorem dataOf_append (bs bs' : List Block) : dataOf c (bs ++ bs') = dataOf c bs ++ dataOf c bs' :=
  List.filterMap_append

/-- A block in front that is no message of the connection. -/
theorem dataOf_other (hblk : blk.type = .blkData → blk.conn ≠ some c) :
    dataOf c (blk :: bs) = dataOf c bs :=
  List.filterMap_cons_none (if_neg fun h => hblk h.1 h.2)

/-- A message of it in front. -/
theorem dataOf_self (htype : blk.type = .blkData) (hconn : blk.conn = some c) :
    dataOf c (blk :: bs) = blk.data :: dataOf c bs :=
  List.filterMap_cons_some (if_pos ⟨htype, hconn⟩)

/-- Of a connection that is not held, another session may be held, or none. -/
theorem Stage.congr {held' : Option Sess} (h : Stage c a bs held st)
    (hheld : ∀ x ∈ held, x.conn ≠ some c) (hheld' : ∀ x ∈ held', x.conn ≠ some c) :
    Stage c a bs held' st := by
  cases st with
  | waiting todo => exact ⟨hheld', h.2⟩
  | live todo => exact absurd rfl (hheld _ h.1)
  | ended => exact ⟨hheld', h.2⟩

/-- A block of another connection makes no difference. -/
theorem Stage.tail (h : Stage c a (blk :: bs) held st) (hother : blk.conn ≠ some c) :
    Stage c a bs held st := by
  cases st with
  | waiting todo =>
    rcases h with ⟨hheld, pre, post, hbs, hpre, hpost⟩
    refine ⟨hheld, ?_⟩
    cases pre with
    | nil =>
      rw [(List.cons.inj hbs).1] at hother
      exact absurd rfl hother
    | cons b pre =>
      exact ⟨pre, post, (List.cons.inj hbs).2, fun b' hb' => hpre b' (List.mem_cons_of_mem b hb'),
        hpost⟩
  | live todo =>
    rcases h with ⟨hheld, hno, htodo⟩
    rw [dataOf_other fun _ => hother] at htodo
    exact ⟨hheld, hno.tail, htodo⟩
  | ended => exact ⟨h.1, h.2.tail⟩

/-- The first block of a connection in waiting is its `BLK_OPEN`. -/
theorem Stage.head_open {todo : List (List UInt8)} (h : Stage c a (blk :: bs) held (.waiting todo))
    (hconn : blk.conn = some c) : blk = a.openBlock c ∧ NoOpen c bs ∧ dataOf c bs = todo := by
  rcases h with ⟨_, pre, post, hbs, hpre, hpost, htodo⟩
  cases pre with
  | nil =>
    rcases List.cons.inj hbs with ⟨hblk, htail⟩
    rw [htail]
    exact ⟨hblk, hpost, htodo⟩
  | cons b pre =>
    rw [(List.cons.inj hbs).1] at hconn
    exact absurd hconn (hpre b List.mem_cons_self)

/-- A connection whose session is held is live. -/
theorem Stage.live_of_held {x : Sess} (h : Stage c a bs held st) (hx : held = some x)
    (hconn : x.conn = some c) : x = a.toSess c ∧ ∃ todo, st = .live todo := by
  cases st with
  | waiting todo => exact absurd hconn (h.1 x hx)
  | live todo => exact ⟨Option.some.inj (hx.symm.trans h.1), todo, rfl⟩
  | ended => exact absurd hconn (h.1 x hx)

/-- Other connections' sessions come and go. -/
theorem Stage.update {sess : Int32 → Option Sess} {fd : Int32} {v : Option Sess}
    (h : Stage c a bs (sess a.fd) st) (hold : ∀ x ∈ sess fd, x.conn ≠ some c)
    (hnew : ∀ x ∈ v, x.conn ≠ some c) : Stage c a bs (Function.update sess fd v a.fd) st := by
  by_cases hfd : a.fd = fd
  · rw [hfd] at h ⊢
    rw [Function.update_self]
    exact h.congr hold hnew
  · rw [Function.update_of_ne hfd]
    exact h

/-- Behind one more block. -/
theorem Stage.push (h : Stage c a bs held st)
    (hblk : blk.type = .blkOpen → blk.conn ≠ some c) :
    Stage c a (bs ++ [blk]) held (st.add (dataOf c [blk])) := by
  cases st with
  | waiting todo =>
    rcases h with ⟨hheld, pre, post, hbs, hpre, hpost, htodo⟩
    refine ⟨hheld, pre, post ++ [blk], ?_, hpre, hpost.concat hblk, ?_⟩
    · rw [hbs, List.append_assoc, List.cons_append]
    · rw [dataOf_append, htodo]
  | live todo =>
    rcases h with ⟨hheld, hno, htodo⟩
    refine ⟨hheld, hno.concat hblk, ?_⟩
    rw [dataOf_append, htodo]
  | ended => exact ⟨h.1, h.2.concat hblk⟩

/-- **A move is a step of each service**, or none. -/
theorem Stage.moved {sess sess' : Int32 → Option Sess} {bs' : List Block} {evs : List Ev}
    (hmoved : Moved bs sess evs bs' sess') (h : Stage c a bs (sess a.fd) st)
    (hbs : ∀ b ∈ bs, b.conn = some c → b.fd = a.fd)
    (hsess : ∀ n x, sess n = some x → x.conn = some c → n = a.fd) :
    ∃ st', exec (serve (a.toSess c)) (eventsOf c evs) st = some st' ∧
      Stage c a bs' (sess' a.fd) st' := by
  cases hmoved with
  | stay => exact ⟨st, rfl, h⟩
  | skip blk _ _ htype hnone =>
    by_cases hconn : blk.conn = some c
    · -- there is no session for it, so it is not being served any more
      rw [hbs blk List.mem_cons_self hconn] at hnone
      cases st with
      | waiting todo =>
        rw [(h.head_open hconn).1] at htype
        exact absurd rfl htype
      | live todo =>
        rw [hnone] at h
        exact absurd h.1 (by simp)
      | ended => exact ⟨.ended, rfl, h.1, h.2.tail⟩
    · exact ⟨st, rfl, h.tail hconn⟩
  | doOpen blk _ _ htype hnone =>
    by_cases hconn : blk.conn = some c
    · cases st with
      | waiting todo =>
        -- the first block ahead is its `BLK_OPEN`
        rcases h.head_open hconn with ⟨hblk, hno, htodo⟩
        rw [eventsOf_self (.opened blk.toSess) hconn, hblk]
        refine ⟨.live todo, ?_, Function.update_self _ _ _, hno, htodo⟩
        simp [serve, Accepted.toSess]
      | live todo => exact absurd hconn (h.2.1 blk List.mem_cons_self htype)
      | ended => exact absurd hconn (h.2 blk List.mem_cons_self htype)
    · rw [eventsOf_other (by simpa [Ev.conn] using hconn)]
      refine ⟨st, rfl, (h.tail hconn).update ?_ ?_⟩
      · rw [hnone]
        simp
      · simpa using hconn
  | doMsg blk _ _ x htype hx hxconn =>
    by_cases hconn : blk.conn = some c
    · rw [hbs blk List.mem_cons_self hconn] at hx
      rcases h.live_of_held hx (hxconn.trans hconn) with ⟨hown, todo, hst⟩
      rw [hst] at h ⊢
      rcases h with ⟨hheld, hno, htodo⟩
      -- the message is the first one that waits
      rw [dataOf_self htype hconn] at htodo
      rw [eventsOf_self (.proc blk.conn blk.data x) hconn, ← htodo]
      refine ⟨.live (dataOf c bs'), ?_, hheld, hno.tail, rfl⟩
      simp [serve, hown]
    · rw [eventsOf_other (by simpa [Ev.conn] using hconn)]
      exact ⟨st, rfl, h.tail hconn⟩
  | doClose blk _ _ x htype hx hxconn =>
    by_cases hconn : blk.conn = some c
    · rw [hbs blk List.mem_cons_self hconn] at hx ⊢
      rcases h.live_of_held hx (hxconn.trans hconn) with ⟨hown, todo, hst⟩
      rw [hst] at h ⊢
      rw [eventsOf_self (.onClosed x) (hxconn.trans hconn), Function.update_self]
      refine ⟨.ended, ?_, by simp, h.2.1.tail⟩
      simp [serve, hown]
    · rw [← hxconn] at hconn
      rw [eventsOf_other (by simpa [Ev.conn] using hconn)]
      refine ⟨st, rfl, (h.tail (hxconn ▸ hconn)).update ?_ (by simp)⟩
      rw [hx]
      simpa using hconn
  -- `close_cli` ends a service whatever is ahead
  | closeCli _ _ fd x hx =>
    by_cases hconn : x.conn = some c
    · have hfd := hsess fd x hx hconn
      rw [hfd] at hx ⊢
      rcases h.live_of_held hx hconn with ⟨hown, todo, hst⟩
      rw [hst] at h ⊢
      rw [eventsOf_self (.onClosed x) hconn, Function.update_self]
      refine ⟨.ended, ?_, by simp, h.2.1⟩
      simp [serve, hown]
    · rw [eventsOf_other (by simpa [Ev.conn] using hconn)]
      refine ⟨st, rfl, h.update ?_ (by simp)⟩
      rw [hx]
      simpa using hconn

/-- A connection that is opened now. -/
theorem stage_init (hbs : ∀ b ∈ bs, b.conn ≠ some c) (hheld : ∀ x ∈ held, x.conn ≠ some c) :
    Stage c a (bs ++ [a.openBlock c]) held (.waiting []) :=
  ⟨hheld, bs, [], rfl, hbs, fun _ hb => (List.not_mem_nil hb).elim, rfl⟩

end SServer.Proto
