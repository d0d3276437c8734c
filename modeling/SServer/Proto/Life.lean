import SServer.Proto.Marks

/-!
# SServer.Proto.Life — what the blocks of `rq` tell of a descriptor

When no push to `rq` fails, a worker hears of every opening and every closing of
each of its descriptors, in order: read as a run of `lifeStep`, the blocks it has
not handled lead from the connection it takes a descriptor for to the connection
the master has registered there. And if the worker has a session for the
descriptor, it is that of the connection it takes it for.

So a `BLK_OPEN` always finds the session of its predecessor gone, and a
`BLK_DATA` or `BLK_CLOSE` finds its own connection's session or none.

* `handleBlock_cases`: what a worker does with its oldest block when the block tells the truth.
* `Follows.step`: a step of a worker keeps it in touch with its descriptors.
* `follows_publish`: the master changes a slot and tells the worker concerned.
* `Synced.told`: so the master keeps all its workers in touch, as long as its pushes succeed.

Nothing is claimed when a push fails: `SServer.Proto.Notify` and `SServer.Proto.Atomic` are
about that.
-/

namespace SServer.Proto

open SServer.Lib SServer.Queue SServer.Worker

/-- What a block tells of the descriptor `n`: the connection behind it before and
after; `none` when it tells nothing that could be true. -/
def lifeStep (n : Int32) (blk : Block) (cur : Option Conn) : Option (Option Conn) :=
  if blk.fd = n then
    match blk.type with
    | .blkOpen => if cur = none ∧ blk.data.length = addrLen then some blk.conn else none
    | .blkData => if cur = blk.conn then some cur else none
    | .blkClose => if cur = blk.conn then some none else none
    | .blkAlign => none
  else some cur

/-- The connection that worker `i` is to serve, for a slot. -/
def connAt (i : Int32) : Slot → Option Conn
  | .cli idx conn => if idx = i then some conn else none
  | _ => none

/-- The blocks that the worker has not looked at. -/
def Work.pending (w : Work) : List Block :=
  if w.phase = .idle then w.rq else w.rq.tail

/-- The worker takes the descriptor `n` for connection `cur`; the master has `o` there. -/
structure Tracks (w : Work) (n : Int32) (o cur : Option Conn) : Prop where
  life : exec (lifeStep n) w.pending cur = some o
  sess : ∀ x, getFd w.fds n = some x → w.phase ≠ .inClosed n → cur = x.conn
  shut : w.phase = .inClosed n → cur = none

/-- What a worker keeps in each of its steps, with the master's connections `o`. -/
structure Follows (w : Work) (o : Int32 → Option Conn) : Prop where
  busy : w.phase ≠ .idle → w.rq ≠ []
  sane : w.garbled = false
  tracks : ∀ n, ∃ cur, Tracks w n (o n) cur

/-- An entry that no client has had. -/
def Slot.Other : Slot → Prop
  | .fresh | .listen _ => True
  | _ => False

/-- The mark is that of a connection accepted as `fd` for worker `i`. -/
def Known (conns : List Accepted) (i fd : Int32) (o : Option Conn) : Prop :=
  ∃ c a, o = some c ∧ conns[c]? = some a ∧ a.fd = fd ∧ a.idx = i

/-- The invariant of the runs in which no push to `rq` fails. -/
structure Synced (s : Sys) : Prop where
  slots : ∀ fd i c, s.slots fd = .cli i c → Known s.conns i fd (some c)
  others : ∀ fd, (s.slots fd).Other → ∀ a ∈ s.conns, a.fd ≠ fd
  marks : ∀ i, Marked (Known s.conns i) (s.works i)
  follows : ∀ i, Follows (s.works i) fun n => connAt i (s.slots n)

/-- No push to `rq` fails. -/
def MasterLbl.Pushed : MasterLbl → Prop
  | .accept _ _ _ pushed _ => pushed = true
  | .frame _ _ pushed _ => pushed = true
  | .hangup _ noted => noted = true
  | .mqSend _ _ _ noted => noted = true

/-- No push fails that tells of a connection: each `BLK_OPEN`, and each `BLK_CLOSE`
that `do_fd_close` makes for a client, comes to `rq`. A message may be refused; its
client is then closed. -/
def MasterLbl.Told : MasterLbl → Sys → Prop
  | .accept _ _ _ pushed _, _ => pushed = true
  | .frame _ _ pushed noted, _ => pushed = false → noted = true
  | .hangup _ noted, _ => noted = true
  | .mqSend i _ alive noted, s =>
    ∀ blk ∈ (s.works i).sq.head?, (s.slots blk.fd).conn ≠ none →
      blk.type = .blkClose ∨ alive = false → noted = true

/-- A step whose pushes succeed tells the worker. -/
theorem MasterLbl.Pushed.told {l : MasterLbl} (h : l.Pushed) (s : Sys) : l.Told s := by
  cases l with
  | accept lfd newfd addr pushed noted => exact h
  | frame fd data pushed noted =>
    intro hno
    rw [show pushed = true from h] at hno
    cases hno
  | hangup fd noted => exact h
  | mqSend i taken alive noted => exact fun _ _ _ _ => h

/-- No client is registered at first. -/
theorem init_slots (listeners : Int32 → Option Int32) (fd i : Int32) (c : Conn) :
    (sysInit listeners).slots fd ≠ .cli i c := by
  intro hslot
  simp only [sysInit] at hslot
  split at hslot <;> cases hslot

/-- At the start the master has no client for anyone. -/
theorem init_connAt (listeners : Int32 → Option Int32) (n i : Int32) :
    connAt i ((sysInit listeners).slots n) = none := by
  cases hslot : (sysInit listeners).slots n with
  | null | fresh | listen j => rfl
  | cli j c => exact absurd hslot (init_slots listeners n j c)

/-- All workers are in touch when nothing has happened. -/
theorem synced_init (listeners : Int32 → Option Int32) : Synced (sysInit listeners) := by
  constructor
  · exact fun fd i c hslot => absurd hslot (init_slots listeners fd i c)
  · exact fun _ _ a ha => (List.not_mem_nil ha).elim
  · exact fun _ => marked_init
  intro i
  refine ⟨fun h => absurd rfl h, rfl, fun n => ?_⟩
  refine ⟨none, ?_, fun x hx => (nomatch hx), fun h => (nomatch h)⟩
  rw [init_connAt]
  rfl

/-! ## Steps of the worker -/

/-- Who is known has a mark. -/
theorem Known.ne_none {conns : List Accepted} {i fd : Int32} {o : Option Conn}
    (h : Known conns i fd o) : o ≠ none := by
  rcases h with ⟨c, _, hc, _⟩
  rw [hc]
  simp

/-- A block of another descriptor tells nothing of `n`. -/
theorem lifeStep_other {n : Int32} {blk : Block} (hne : blk.fd ≠ n) (cur : Option Conn) :
    lifeStep n blk cur = some cur := if_neg hne

/-- A `BLK_OPEN` opens a descriptor that is not in use. -/
theorem lifeStep_open {a : Accepted} (haddr : a.addr.length = addrLen) (c : Conn) :
    lifeStep a.fd (a.openBlock c) none = some (some c) := by
  simp [lifeStep, Accepted.openBlock, haddr]

/-- A message belongs to the connection in use. -/
theorem lifeStep_msg (idx fd : Int32) (data : List UInt8) (c : Conn) :
    lifeStep fd (msgBlock idx fd data c) (some c) = some (some c) := by
  simp [lifeStep, msgBlock]

/-- A `BLK_CLOSE` ends it. -/
theorem lifeStep_close (idx fd : Int32) (c : Conn) :
    lifeStep fd (closeBlock idx fd (some c)) (some c) = some none := by
  simp [lifeStep, closeBlock]

/-- **What a worker does with the oldest block**, when it tells the truth: open a
session where there is none, or go through the session of its own connection, or
find no session and do nothing. -/
theorem handleBlock_cases {w : Work} {blk : Block} {cur cur' : Option Conn} (pushed : Bool)
    (hlife : lifeStep blk.fd blk cur = some cur')
    (hsess : ∀ x, getFd w.fds blk.fd = some x → cur = x.conn ∧ x.conn ≠ none) :
    getFd w.fds blk.fd = none ∧ blk.type = .blkOpen ∧ cur = none ∧ cur' = blk.conn ∧
        handleBlock blk pushed w =
          ({ w with phase := .handled, fds := saveFd w.fds blk.fd blk.toSess },
            [.opened blk.toSess]) ∨
      getFd w.fds blk.fd = none ∧ blk.type ≠ .blkOpen ∧
        handleBlock blk pushed w = ({ w with phase := .handled }, []) ∨
      ∃ x, getFd w.fds blk.fd = some x ∧ x.conn = blk.conn ∧
        (blk.type = .blkData ∧ cur' = cur ∧
            handleBlock blk pushed w =
              ({ w with phase := .inProc blk.fd }, [.proc blk.conn blk.data x]) ∨
          blk.type = .blkClose ∧ cur' = none ∧
            handleBlock blk pushed w = ({ w with phase := .inClosed blk.fd }, [.onClosed x])) := by
  unfold lifeStep at hlife
  rw [if_pos rfl] at hlife
  unfold handleBlock
  cases htype : blk.type with
  | blkOpen =>
    simp only [htype, Option.ite_none_right_eq_some] at hlife
    rcases hlife with ⟨⟨hnone, hlen⟩, hcur⟩
    -- a session here would be one of no connection
    have hfree : getFd w.fds blk.fd = none := by
      cases hx : getFd w.fds blk.fd with
      | none => rfl
      | some x =>
        rcases hsess x hx with ⟨heq, hne⟩
        exact absurd (heq.symm.trans hnone) hne
    left
    refine ⟨hfree, rfl, hnone, (Option.some.inj hcur).symm, ?_⟩
    simp [hfree, hlen]
  | blkData =>
    simp only [htype, Option.ite_none_right_eq_some] at hlife
    rcases hlife with ⟨hconn, hcur⟩
    right
    cases hx : getFd w.fds blk.fd with
    | none => exact Or.inl ⟨rfl, by simp, rfl⟩
    | some x =>
      have heq := (hsess x hx).1
      exact Or.inr ⟨x, rfl, heq.symm.trans hconn,
        Or.inl ⟨rfl, (Option.some.inj hcur).symm, rfl⟩⟩
  | blkClose =>
    simp only [htype, Option.ite_none_right_eq_some] at hlife
    rcases hlife with ⟨hconn, hcur⟩
    right
    cases hx : getFd w.fds blk.fd with
    | none => exact Or.inl ⟨rfl, by simp, rfl⟩
    | some x =>
      have heq := (hsess x hx).1
      exact Or.inr ⟨x, rfl, heq.symm.trans hconn,
        Or.inr ⟨rfl, (Option.some.inj hcur).symm, rfl⟩⟩
  | blkAlign =>
    simp only [htype] at hlife
    cases hlife

/-- What looking at a block leaves alone, when the block tells the truth: both
queues, and whatever is about other descriptors. -/
structure Looked (w w' : Work) (fd : Int32) : Prop where
  rq : w'.rq = w.rq
  sq : w'.sq = w.sq
  closing : w'.closing = w.closing
  garbled : w'.garbled = w.garbled
  phase : w'.phase ≠ .idle
  others : ∀ n, n ≠ fd → getFd w'.fds n = getFd w.fds n ∧ w'.phase ≠ .inClosed n

/-- A block that tells the truth leaves the sessions of other descriptors alone. -/
theorem handleBlock_looked {w : Work} {blk : Block} {cur cur' : Option Conn} (pushed : Bool)
    (hlife : lifeStep blk.fd blk cur = some cur')
    (hsess : ∀ x, getFd w.fds blk.fd = some x → cur = x.conn ∧ x.conn ≠ none) :
    Looked w (handleBlock blk pushed w).1 blk.fd := by
  rcases handleBlock_cases pushed hlife hsess with
    ⟨_, _, _, _, heq⟩ | ⟨_, _, heq⟩ | ⟨x, _, _, ⟨_, _, heq⟩ | ⟨_, _, heq⟩⟩
  · rw [heq]
    refine ⟨rfl, rfl, rfl, rfl, by simp, fun n hn => ⟨?_, by simp⟩⟩
    simp only [getFd, saveFd, Function.update_of_ne hn]
  · rw [heq]
    exact ⟨rfl, rfl, rfl, rfl, by simp, fun n _ => ⟨rfl, by simp⟩⟩
  · rw [heq]
    exact ⟨rfl, rfl, rfl, rfl, by simp, fun n _ => ⟨rfl, by simp⟩⟩
  · rw [heq]
    exact ⟨rfl, rfl, rfl, rfl, by simp, fun n hn => ⟨rfl, by simp [Ne.symm hn]⟩⟩

/-- It is no longer ahead. -/
theorem Looked.pending {w w' : Work} {fd : Int32} (h : Looked w w' fd) :
    w'.pending = w.rq.tail := by
  unfold Work.pending
  rw [if_neg h.phase, h.rq]

/-- What there is to know of a descriptor when the oldest block is looked at: the
connection it is taken for before and after, and its session. -/
structure Oldest (w : Work) (blk : Block) (n : Int32) (o cur cur' : Option Conn) : Prop where
  step : lifeStep n blk cur = some cur'
  rest : exec (lifeStep n) w.rq.tail cur' = some o
  sess : ∀ x, getFd w.fds n = some x → cur = x.conn

/-- The oldest block tells the truth about its own descriptor, and nothing about others. -/
theorem Follows.oldest {w : Work} {o : Int32 → Option Conn} (h : Follows w o) {blk : Block}
    {rest : List Block} (hidle : w.phase = .idle) (hrq : w.rq = blk :: rest) (n : Int32) :
    ∃ cur cur', Oldest w blk n (o n) cur cur' := by
  rcases h.tracks n with ⟨cur, htr⟩
  have hlife := htr.life
  unfold Work.pending at hlife
  rw [if_pos hidle, hrq] at hlife
  rcases exec_cons_some.mp hlife with ⟨cur', hstep, hrest⟩
  refine ⟨cur, cur', hstep, ?_, fun x hx => htr.sess x hx ?_⟩
  · rw [hrq]
    exact hrest
  · rw [hidle]
    simp

/-- Looking at the oldest block. -/
theorem Follows.handleBlock {w : Work} {o : Int32 → Option Conn} (h : Follows w o) {blk : Block}
    {rest : List Block} (hidle : w.phase = .idle) (hrq : w.rq = blk :: rest)
    (hmark : ∀ fd x, getFd w.fds fd = some x → x.conn ≠ none) (pushed : Bool) :
    Follows (handleBlock blk pushed w).1 o := by
  rcases h.oldest hidle hrq blk.fd with ⟨cur, cur', hold⟩
  have hsess := fun x hx => And.intro (hold.sess x hx) (hmark blk.fd x hx)
  have hlook := handleBlock_looked pushed hold.step hsess
  refine ⟨fun _ => ?_, hlook.garbled.trans h.sane, fun n => ?_⟩
  · rw [hlook.rq, hrq]
    exact List.cons_ne_nil _ _
  by_cases hn : n = blk.fd
  swap
  · -- nothing is said of `n`
    rcases h.oldest hidle hrq n with ⟨m, m', hother⟩
    have hstep := hother.step
    rw [lifeStep_other (Ne.symm hn)] at hstep
    cases hstep
    rcases hlook.others n hn with ⟨hfds, hphase⟩
    refine ⟨m, ?_, fun x hx _ => hother.sess x (hfds ▸ hx), fun heq => absurd heq hphase⟩
    rw [hlook.pending]
    exact hother.rest
  rw [hn]
  have hlife : exec (lifeStep blk.fd) (Proto.handleBlock blk pushed w).1.pending cur'
      = some (o blk.fd) := by
    rw [hlook.pending]
    exact hold.rest
  rcases handleBlock_cases pushed hold.step hsess with
    ⟨_, _, _, hcur', heq⟩ | ⟨hnone, _, heq⟩ | ⟨x, _, _, ⟨_, hcur', heq⟩ | ⟨_, hcur', heq⟩⟩
  · -- the session is opened
    rw [heq] at hlife ⊢
    refine ⟨cur', hlife, fun x hx _ => ?_, fun hshut => by cases hshut⟩
    simp only [getFd, saveFd, Function.update_self, Option.some.injEq] at hx
    rw [← hx, hcur']
    rfl
  · -- there is no session to do anything with
    rw [heq] at hlife ⊢
    refine ⟨cur', hlife, fun x hx _ => ?_, fun hshut => by cases hshut⟩
    rw [hnone] at hx
    cases hx
  · -- `proc_cli_msg` is called
    rw [heq] at hlife ⊢
    refine ⟨cur', hlife, fun y hy _ => ?_, fun hshut => by cases hshut⟩
    rw [hcur']
    exact hold.sess y hy
  · -- `on_cli_closed` is called
    rw [heq] at hlife ⊢
    exact ⟨cur', hlife, fun y _ hphase => absurd rfl hphase, fun _ => hcur'⟩

/-- `sq` and the calls of `close_cli` play no part. -/
theorem Follows.congr {w w' : Work} {o : Int32 → Option Conn} (h : Follows w o)
    (hrq : w'.rq = w.rq) (hphase : w'.phase = w.phase) (hgarbled : w'.garbled = w.garbled)
    (hfds : ∀ n x, getFd w'.fds n = some x → getFd w.fds n = some x) : Follows w' o := by
  refine ⟨?_, hgarbled.trans h.sane, fun n => ?_⟩
  · rw [hrq, hphase]
    exact h.busy
  · rcases h.tracks n with ⟨cur, htr⟩
    refine ⟨cur, ?_, fun x hx hne => ?_, fun hshut => ?_⟩
    · unfold Work.pending
      rw [hrq, hphase]
      exact htr.life
    · rw [hphase] at hne
      exact htr.sess x (hfds n x hx) hne
    · rw [hphase] at hshut
      exact htr.shut hshut

/-- Behind the callbacks, the block is handled. -/
theorem Follows.handled {w : Work} {o : Int32 → Option Conn} (h : Follows w o) {fds : Fds Sess}
    (hbusy : w.phase ≠ .idle)
    (hfds : ∀ n x, getFd fds n = some x → getFd w.fds n = some x ∧ w.phase ≠ .inClosed n) :
    Follows { w with phase := .handled, fds := fds } o := by
  refine ⟨fun _ => h.busy hbusy, h.sane, fun n => ?_⟩
  rcases h.tracks n with ⟨cur, htr⟩
  refine ⟨cur, ?_, fun x hx _ => ?_, fun hshut => nomatch hshut⟩
  · have hlife := htr.life
    unfold Work.pending at hlife
    rw [if_neg hbusy] at hlife
    exact hlife
  · rcases hfds n x hx with ⟨hold, hne⟩
    exact htr.sess x hold hne

/-- What is left after a removal was there before. -/
theorem removeFd_some {fds : Fds Sess} {fd n : Int32} {x : Sess}
    (h : getFd (removeFd fds fd) n = some x) : n ≠ fd ∧ getFd fds n = some x := by
  by_cases heq : n = fd
  · rw [heq] at h
    simp [getFd, removeFd] at h
  · simp only [getFd, removeFd, Function.update_of_ne heq] at h
    exact ⟨heq, h⟩

/-- An answer changes nothing but `sq`. -/
theorem pushSq_frame (w : Work) (blk : Block) (pushed : Bool) :
    (w.pushSq blk pushed).rq = w.rq ∧ (w.pushSq blk pushed).phase = w.phase ∧
      (w.pushSq blk pushed).garbled = w.garbled ∧ (w.pushSq blk pushed).fds = w.fds ∧
      (w.pushSq blk pushed).closing = w.closing := by
  cases pushed with
  | false => exact ⟨rfl, rfl, rfl, rfl, rfl⟩
  | true => exact ⟨rfl, rfl, rfl, rfl, rfl⟩

/-- All that `close_cli` can do: nothing without a session, else push its block
and call `on_cli_closed`. -/
theorem closeCli_cases {i fd : Int32} {pushed : Bool} {w w' : Work} {evs : List Ev}
    (h : closeCli i fd pushed w = some (w', evs)) :
    getFd w.fds fd = none ∧ w' = w ∧ evs = [] ∨
      ∃ x, getFd w.fds fd = some x ∧ evs = [.onClosed x] ∧
        w' = { w.pushSq (closeBlock i fd x.conn) pushed with closing := fd :: w.closing } := by
  unfold closeCli at h
  cases hx : getFd w.fds fd with
  | none =>
    rw [hx] at h
    cases h
    exact Or.inl ⟨rfl, rfl, rfl⟩
  | some x =>
    rw [hx] at h
    simp only [Option.ite_none_right_eq_some] at h
    cases h.2
    rcases pushSq_frame w (closeBlock i fd x.conn) pushed with ⟨_, _, _, _, hclosing⟩
    exact Or.inr ⟨x, rfl, rfl, by rw [hclosing]⟩

/-- `close_cli` keeps a worker in touch: the session stays until the callback returns. -/
theorem Follows.closeCli {i fd : Int32} {pushed : Bool} {w w' : Work} {evs : List Ev}
    {o : Int32 → Option Conn} (h : Follows w o) (hclose : closeCli i fd pushed w = some (w', evs)) :
    Follows w' o := by
  rcases closeCli_cases hclose with ⟨_, hw, _⟩ | ⟨x, _, _, hw⟩
  · rw [hw]
    exact h
  · rcases pushSq_frame w (closeBlock i fd x.conn) pushed with ⟨hrq, hphase, hgarbled, hfds, _⟩
    rw [hw]
    exact h.congr hrq hphase hgarbled (fun n y hy => hfds ▸ hy)

/-- **A worker's step keeps in touch** with all its descriptors. -/
theorem Follows.step {i : Int32} {l : WorkLbl} {w w' : Work} {evs : List Ev}
    {o : Int32 → Option Conn} (h : Follows w o)
    (hmark : ∀ fd x, getFd w.fds fd = some x → x.conn ≠ none)
    (hstep : WorkStep i w l w' evs) : Follows w' o := by
  cases hstep with
  | recv pushed hidle _ _ hrq => exact h.handleBlock hidle hrq hmark pushed
  -- a worker that follows has no garbled ring
  | recvGarbled blk pushed _ _ hgarbled =>
    rw [h.sane] at hgarbled
    cases hgarbled
  | procRet _ hphase =>
    exact h.handled (by simp [hphase]) fun n x hx => ⟨hx, by simp [hphase]⟩
  | procErr _ _ hphase _ hclose =>
    have hdone : Follows { w with phase := .handled } o :=
      h.handled (by simp [hphase]) fun n x hx => ⟨hx, by simp [hphase]⟩
    exact hdone.closeCli hclose
  | cliRet => exact h.congr rfl rfl rfl fun n x hx => (removeFd_some hx).2
  | blkRet _ hphase =>
    refine h.handled (by simp [hphase]) fun n x hx => ?_
    rcases removeFd_some hx with ⟨hne, hold⟩
    refine ⟨hold, fun heq => hne ?_⟩
    rw [hphase] at heq
    exact (Phase.inClosed.inj heq).symm
  -- the block is popped after it was handled, so the worker is already behind it
  | pop hphase =>
    rw [h.sane]
    refine ⟨fun hne => absurd rfl hne, rfl, fun n => ?_⟩
    rcases h.tracks n with ⟨cur, htr⟩
    refine ⟨cur, ?_, fun x hx _ => htr.sess x hx (by simp [hphase]), fun hshut => nomatch hshut⟩
    have hlife := htr.life
    unfold Work.pending at hlife
    rw [if_neg (by simp [hphase])] at hlife
    exact hlife
  | @sendToCli fd x msg pushed =>
    rcases pushSq_frame w ⟨.blkData, i, fd, msg, x.conn⟩ pushed with
      ⟨hrq, hphase, hgarbled, hfds, _⟩
    exact h.congr hrq hphase hgarbled (fun n y hy => hfds ▸ hy)
  | closeCli _ hclose => exact h.closeCli hclose

/-! ## Steps of the master -/

/-- Who is known stays known. -/
theorem Known.append {conns : List Accepted} {i fd : Int32} {o : Option Conn}
    (h : Known conns i fd o) (a : Accepted) : Known (conns ++ [a]) i fd o := by
  rcases h with ⟨c, a', hc, ha', hfd, hidx⟩
  have hlt := (List.getElem?_eq_some_iff.mp ha').1
  exact ⟨c, a', hc, by rw [List.getElem?_append_left hlt]; exact ha', hfd, hidx⟩

/-- The last one accepted is known. -/
theorem known_concat (conns : List Accepted) (a : Accepted) :
    Known (conns ++ [a]) a.idx a.fd (some conns.length) :=
  ⟨conns.length, a, rfl, by simp, rfl, rfl⟩

/-- A block that comes is ahead of the worker. -/
theorem Follows.pending_push {w : Work} {o : Int32 → Option Conn} (h : Follows w o) (blk : Block) :
    (w.enqueue blk).pending = w.pending ++ [blk] := by
  unfold Work.pending Work.enqueue
  by_cases hidle : w.phase = .idle
  · rw [if_pos hidle, if_pos hidle]
  · rw [if_neg hidle, if_neg hidle]
    exact List.tail_append_of_ne_nil (h.busy hidle)

/-- One more block in `rq`, and the master has moved on accordingly. -/
theorem Follows.push {w : Work} {o : Int32 → Option Conn} (h : Follows w o) {blk : Block}
    {v : Option Conn} (hlife : lifeStep blk.fd blk (o blk.fd) = some v) :
    Follows (w.enqueue blk) (Function.update o blk.fd v) := by
  refine ⟨fun _ => by simp [Work.enqueue], h.sane, fun n => ?_⟩
  rcases h.tracks n with ⟨cur, htr⟩
  refine ⟨cur, ?_, htr.sess, htr.shut⟩
  rw [h.pending_push]
  refine exec_concat htr.life ?_
  by_cases hfd : n = blk.fd
  · rw [hfd, Function.update_self]
    exact hlife
  · rw [Function.update_of_ne hfd]
    exact lifeStep_other (Ne.symm hfd) _

/-- **Publishing a change.** The master changes a slot and tells the worker that
the slot is about, by the block for the change; no other worker had or gets the
slot. Then all workers are still in touch. -/
theorem follows_publish {s : Sys} (h : ∀ i, Follows (s.works i) fun n => connAt i (s.slots n))
    (idx : Int32) (blk : Block) {slot : Slot}
    (hlife : lifeStep blk.fd blk (connAt idx (s.slots blk.fd)) = some (connAt idx slot))
    (hother : ∀ i, i ≠ idx → connAt i slot = connAt i (s.slots blk.fd)) :
    ∀ i, Follows ((s.pushRq idx blk true).works i)
      fun n => connAt i (Function.update s.slots blk.fd slot n) := by
  intro i
  have hslots : (fun n => connAt i (Function.update s.slots blk.fd slot n))
      = Function.update (fun n => connAt i (s.slots n)) blk.fd (connAt i slot) := by
    funext n
    by_cases hn : n = blk.fd
    · rw [hn, Function.update_self, Function.update_self]
    · rw [Function.update_of_ne hn, Function.update_of_ne hn]
  rw [hslots]
  by_cases hi : i = idx
  · rw [hi, pushRq_self]
    exact (h idx).push hlife
  · have hself : Function.update (fun n => connAt i (s.slots n)) blk.fd (connAt i slot)
        = fun n => connAt i (s.slots n) := by
      rw [hother i hi]
      exact Function.update_eq_self _ _
    rw [hself, pushRq_other s hi]
    exact h i

/-- The connection in a slot, for its own worker. -/
theorem connAt_self (i : Int32) (c : Conn) : connAt i (.cli i c) = some c := if_pos rfl

/-- Another worker sees none there. -/
theorem connAt_other {i idx : Int32} (hne : i ≠ idx) (c : Conn) : connAt i (.cli idx c) = none :=
  if_neg (Ne.symm hne)

/-- Nor does anyone in an empty slot. -/
theorem connAt_none {slot : Slot} (h : slot = .null ∨ slot = .fresh) (i : Int32) :
    connAt i slot = none := by
  rcases h with h | h
  · rw [h]
    rfl
  · rw [h]
    rfl

/-- A client's closing is told to its worker. -/
theorem Synced.doFdClose {s : Sys} (h : Synced s) {fd : Int32} (hslot : ¬ (s.slots fd).Other) :
    Synced (doFdClose fd true s) := by
  -- a slot that is not null now was so before
  have hslots : ∀ n slot, Function.update s.slots fd .null n = slot → slot ≠ .null →
      s.slots n = slot := by
    intro n slot hn hne
    by_cases heq : n = fd
    · rw [heq, Function.update_self] at hn
      exact absurd hn.symm hne
    · rwa [Function.update_of_ne heq] at hn
  constructor
  · intro n i c hn
    rw [doFdClose_slots] at hn
    rw [doFdClose_conns]
    exact h.slots n i c (hslots n _ hn (by simp))
  · intro n hn
    rw [doFdClose_slots] at hn
    rw [doFdClose_conns]
    refine h.others n ?_
    by_cases heq : n = fd
    · rw [heq, Function.update_self] at hn
      exact absurd hn (fun hno => hno)
    · rwa [Function.update_of_ne heq] at hn
  · rw [doFdClose_conns]
    refine doFdClose_marked h.marks (fun hne => ?_) true
    cases hcase : s.slots fd with
    | null => exact absurd hcase hne
    | fresh | listen i =>
      rw [hcase] at hslot
      exact absurd trivial hslot
    | cli i c => exact h.slots fd i c hcase
  · rw [doFdClose_slots]
    rcases doFdClose_works fd true s with ⟨hnull, heq⟩ | ⟨hne, heq⟩
    · rw [heq, ← hnull, Function.update_eq_self]
      exact h.follows
    · rw [heq]
      cases hcase : s.slots fd with
      | null => exact absurd hcase hne
      | fresh | listen i =>
        rw [hcase] at hslot
        exact absurd trivial hslot
      | cli idx c =>
        -- the worker concerned is told by the block, and for the others nothing changes
        refine follows_publish h.follows idx (closeBlock idx fd (some c)) ?_ fun i hi => ?_
        · change lifeStep fd _ (connAt idx (s.slots fd)) = _
          rw [hcase, connAt_self]
          exact lifeStep_close idx fd c
        · change _ = connAt i (s.slots fd)
          rw [hcase, connAt_other hi]
          rfl

/-- A block is about a connection, and so its slot is one that a client has had. -/
theorem Synced.not_other {s : Sys} (h : Synced s) {i : Int32} {blk : Block} {rest : List Block}
    (hsq : (s.works i).sq = blk :: rest) : ¬ (s.slots blk.fd).Other := by
  intro hother
  have hblk : blk ∈ (s.works i).sq := by
    rw [hsq]
    exact List.mem_cons_self
  rcases (h.marks i).sq blk hblk with ⟨c, a, _, ha, hfd, _⟩
  exact h.others blk.fd hother a (List.mem_of_getElem? ha) hfd

/-- What is popped from `sq` tells no worker anything. -/
theorem Synced.popSq {s : Sys} (h : Synced s) (j : Int32) : Synced (s.popSq j) := by
  refine ⟨h.slots, h.others, popSq_marked h.marks j, fun i => ?_⟩
  by_cases hi : i = j
  · rw [hi, popSq_self]
    exact (h.follows j).congr rfl rfl rfl fun _ _ hx => hx
  · rw [popSq_other s hi]
    exact h.follows i

/-- A message of a client is told to its worker. -/
theorem Synced.pushData {s : Sys} (h : Synced s) {fd idx : Int32} {conn : Conn}
    (hslot : s.slots fd = .cli idx conn) (data : List UInt8) :
    Synced (s.pushRq idx (msgBlock idx fd data conn) true) := by
  constructor
  · rw [pushRq_slots, pushRq_conns]
    exact h.slots
  · rw [pushRq_slots, pushRq_conns]
    exact h.others
  · rw [pushRq_conns]
    exact pushRq_marked h.marks idx _ (h.slots fd idx conn hslot) true
  · rw [pushRq_slots, ← Function.update_eq_self fd s.slots]
    refine follows_publish h.follows idx (msgBlock idx fd data conn) ?_ fun _ _ => rfl
    change lifeStep fd _ (connAt idx (s.slots fd)) = some (connAt idx (s.slots fd))
    rw [hslot, connAt_self]
    exact lifeStep_msg idx fd data conn

/-- A new connection is told to its worker. -/
theorem Synced.accept {s : Sys} (h : Synced s) {a : Accepted}
    (hfree : s.slots a.fd = .null ∨ s.slots a.fd = .fresh)
    (haddr : a.addr.length = addrLen) :
    Synced ((s.register a).pushRq a.idx (a.openBlock s.conns.length) true) := by
  -- the other slots are as they were
  have hold : ∀ n slot, n ≠ a.fd → Function.update s.slots a.fd (.cli a.idx s.conns.length) n
      = slot → s.slots n = slot := by
    intro n slot hne hn
    rwa [Function.update_of_ne hne] at hn
  constructor
  · rw [pushRq_slots, pushRq_conns, register_slots, register_conns]
    intro n i c hslot
    by_cases heq : n = a.fd
    · rw [heq] at hslot ⊢
      simp only [Function.update_self] at hslot
      cases hslot
      exact known_concat s.conns a
    · -- an older connection stays known when one more is recorded
      exact (h.slots n i c (hold n _ heq hslot)).append a
  · rw [pushRq_slots, pushRq_conns, register_slots, register_conns]
    intro n hslot a' ha' hfd
    by_cases heq : n = a.fd
    · rw [heq] at hslot
      simp only [Function.update_self] at hslot
      exact hslot
    · simp only [Function.update_of_ne heq] at hslot
      rcases List.mem_append.mp ha' with hbefore | hnew
      · exact h.others n hslot a' hbefore hfd
      · rw [List.mem_singleton.mp hnew] at hfd
        exact heq hfd.symm
  · rw [pushRq_conns]
    refine pushRq_marked (fun i => ?_) a.idx _ (known_concat s.conns a) true
    exact (h.marks i).mono fun _ _ hk => hk.append a
  · -- the BLK_OPEN brings the worker from no connection to the new one
    rw [pushRq_slots]
    refine follows_publish (s := s) h.follows a.idx (a.openBlock s.conns.length) ?_ fun i hi => ?_
    · rw [connAt_self]
      change lifeStep a.fd _ (connAt a.idx (s.slots a.fd)) = _
      rw [connAt_none hfree]
      exact lifeStep_open haddr s.conns.length
    · rw [connAt_other hi]
      exact (connAt_none hfree i).symm

/-- What has been seen and done plays no part. -/
theorem Synced.congr {s : Sys} (h : Synced s) (calls : List Ev) (effects : List Effect) :
    Synced { s with calls := calls, effects := effects } :=
  ⟨h.slots, h.others, h.marks, h.follows⟩

/-- A client's slot is one that a client has had. -/
theorem cli_not_other {slot : Slot} {idx : Int32} {c : Conn} (h : slot = .cli idx c) :
    ¬ slot.Other := by
  rw [h]
  exact fun hother => hother

/-- A client whose socket takes what it is sent stays open. -/
theorem doBlkSend_kept {blk : Block} {s : Sys} (hconn : (s.slots blk.fd).conn ≠ none)
    (htype : blk.type ≠ .blkClose) (taken : Nat) (noted : Bool) :
    doBlkSend blk taken true noted s =
      { s with effects := s.effects ++ effectsOf blk taken (s.slots blk.fd) } := by
  unfold doBlkSend doFdSend effectsOf
  rw [if_neg htype]
  cases hslot : s.slots blk.fd with
  | cli idx conn =>
    simp only [if_neg htype, if_true]
    by_cases hnil : blk.data.take taken = []
    · simp only [if_pos hnil, List.append_nil]
    · simp only [if_neg hnil]
  | null | fresh | listen idx =>
    rw [hslot] at hconn
    exact absurd rfl hconn

/-- An entry that clients have had is free, or a client's. -/
theorem conn_of_not_other {slot : Slot} (hslot : ¬ slot.Other) (hne : slot ≠ .null) :
    slot.conn ≠ none := by
  cases slot with
  | null => exact absurd rfl hne
  | fresh | listen i => exact absurd trivial hslot
  | cli i c => simp [Slot.conn]

/-- A closing that is told, or that finds nothing to close. -/
theorem Synced.doFdClose_told {s : Sys} (h : Synced s) {fd : Int32} {noted : Bool}
    (hslot : ¬ (s.slots fd).Other) (hnoted : (s.slots fd).conn ≠ none → noted = true) :
    Synced (Proto.doFdClose fd noted s) := by
  rcases doFdClose_works fd noted s with ⟨_, heq⟩ | ⟨hne, _⟩
  · rw [heq]
    exact h
  · rw [hnoted (conn_of_not_other hslot hne)]
    exact h.doFdClose hslot

/-- **The master keeps its workers in touch**, as long as each of them is told of its
connections. -/
theorem Synced.told {s t : Sys} {l : MasterLbl} (h : Synced s) (hl : l.Told s)
    (hstep : MasterStep s l t) : Synced t := by
  cases hstep with
  | accept _ _ _ hfree haddr => exact h.accept hfree haddr
  | acceptLost => cases hl
  | frame data _ hslot => exact (h.pushData hslot data).congr _ _
  | frameLost data noted hslot =>
    rw [hl rfl]
    exact (h.congr _ s.effects).doFdClose (cli_not_other hslot)
  | hangup noted hslot =>
    rw [show noted = true from hl]
    exact h.doFdClose (cli_not_other hslot)
  | @mqSend i blk rest taken alive noted hsq =>
    refine Synced.popSq ?_ i
    have heff := h.congr s.calls (s.effects ++ effectsOf blk taken (s.slots blk.fd))
    by_cases hkept : (s.slots blk.fd).conn ≠ none ∧ blk.type ≠ .blkClose ∧ alive = true
    · rw [hkept.2.2, doBlkSend_kept hkept.1 hkept.2.1]
      exact heff
    rcases doBlkSend_cases blk taken alive noted s with ⟨_, heq⟩ | heq
    · rw [heq]
      exact heff
    · rw [heq]
      refine heff.doFdClose_told (h.not_other hsq) fun hconn => ?_
      apply hl blk (by rw [hsq]; rfl) hconn
      by_contra hno
      rw [not_or, Bool.not_eq_false] at hno
      exact hkept ⟨hconn, hno⟩

/-- A worker's step, in the system. -/
theorem Synced.work {s : Sys} (h : Synced s) {i : Int32} {l : WorkLbl} {w : Work} {evs : List Ev}
    (hstep : WorkStep i (s.works i) l w evs) :
    Synced { s with works := Function.update s.works i w, calls := s.calls ++ evs } := by
  have hsane : (s.works i).garbled = true → ∀ fd, Known s.conns i fd none := by
    intro hgarbled
    rw [(h.follows i).sane] at hgarbled
    cases hgarbled
  refine ⟨h.slots, h.others, fun j => ?_, fun j => ?_⟩
  · by_cases heq : j = i
    · rw [heq]
      simp only [Function.update_self]
      exact hstep.marked (h.marks i) hsane
    · simp only [Function.update_of_ne heq]
      exact h.marks j
  · by_cases heq : j = i
    · rw [heq]
      simp only [Function.update_self]
      exact (h.follows i).step (fun fd x hx => ((h.marks i).fds fd x hx).ne_none) hstep
    · simp only [Function.update_of_ne heq]
      exact h.follows j

end SServer.Proto
