import SServer.Proto.Stage

/-!
# SServer.Proto.Delivery — every connection gets good service

In the runs in which no push to `rq` fails and no `on_cli_closed` calls
`close_cli`, the events of every accepted connection are a run of `serve`: the
steps of its worker are steps of its service, the messages that the master
pushes are framed on the way, and what else happens is not about it.

* `Delivering`: the invariant: every accepted connection is being served, and nothing is seen of
  any other.
* `Delivering.work`: the steps of a worker keep it, by `WorkStep.moved` and `Stage.moved`.
* `Delivering.accept`, `Delivering.frame`, `Delivering.doFdClose`: what the master does: it
  opens a connection, frames a message, closes.
* `Delivering.master`: so its steps keep the invariant, as long as no push to `rq` fails.
* `connections_served`: the result: what is seen of each connection is good service, with the
  session of its own `BLK_OPEN`.

The order of the events of one connection is claimed, none between connections. A callback
`on_cli_closed` that closes clients again is excluded: `close_cli` and `do_blk_close` then hold
one session between them.
-/

namespace SServer.Proto

open SServer.Lib SServer.Queue SServer.Worker

/-- What the worker has done for a connection, and what it is up to. -/
def Serving (w : Work) (calls : List Ev) (c : Conn) (a : Accepted) : Prop :=
  ∃ st, exec (serve (a.toSess c)) (eventsOf c calls) (.waiting []) = some st ∧
    Stage c a w.pending (w.held a.fd) st

/-- The invariant: every accepted connection is being served, and nothing is seen
of any other. -/
structure Delivering (s : Sys) : Prop where
  synced : Synced s
  seen : ∀ e ∈ s.calls, ∃ i fd, Known s.conns i fd e.conn
  serves : ∀ c a, s.conns[c]? = some a → Serving (s.works a.idx) s.calls c a

/-- No push to `rq` fails, and no `on_cli_closed` calls `close_cli`. -/
def Calm : Lbl → Sys → Prop
  | .master l, _ => l.Pushed
  | .work i l, s => l.Calm (s.works i)

instance (w : Work) : Decidable w.Quiet :=
  match hphase : w.phase with
  | .inClosed n => isFalse fun h => h.2 n hphase
  | .idle | .inProc _ | .handled =>
    decidable_of_iff (w.closing = []) ⟨fun h => ⟨h, fun n => by simp [hphase]⟩, And.left⟩

instance : ∀ (l : WorkLbl) (w : Work), Decidable (l.Calm w)
  | .closeCli _ _, w => inferInstanceAs (Decidable w.Quiet)
  | .recv _, _ | .recvGarbled _ _, _ | .procRet _ _, _ | .closedRet, _ | .pop, _
  | .sendToCli _ _ _, _ => isTrue trivial

instance : ∀ l : MasterLbl, Decidable l.Pushed
  | .accept _ _ _ pushed _ | .frame _ _ pushed _ => inferInstanceAs (Decidable (pushed = true))
  | .hangup _ noted | .mqSend _ _ _ noted => inferInstanceAs (Decidable (noted = true))

instance : ∀ (l : Lbl) (s : Sys), Decidable (Calm l s)
  | .master l, _ => inferInstanceAs (Decidable l.Pushed)
  | .work i l, s => inferInstanceAs (Decidable (l.Calm (s.works i)))

/-- Nobody has connected yet. -/
theorem delivering_init (listeners : Int32 → Option Int32) : Delivering (sysInit listeners) := by
  refine ⟨synced_init listeners, ?_, ?_⟩
  · intro e he
    cases he
  · intro c a ha
    cases ha

/-- A mark is that of the connection with its number. -/
theorem Known.eq {conns : List Accepted} {i fd : Int32} {c : Conn} {a : Accepted}
    (h : Known conns i fd (some c)) (ha : conns[c]? = some a) : fd = a.fd ∧ i = a.idx := by
  rcases h with ⟨c', a', hc, ha', hfd, hidx⟩
  cases hc
  cases ha.symm.trans ha'
  exact ⟨hfd.symm, hidx.symm⟩

/-- A connection that is known has been accepted. -/
theorem Known.lt {conns : List Accepted} {i fd : Int32} {c : Conn}
    (h : Known conns i fd (some c)) : c < conns.length := by
  rcases h with ⟨c', a', hc, ha', _⟩
  cases hc
  exact (List.getElem?_eq_some_iff.mp ha').1

/-! ## Steps of the worker -/

/-- A block that is ahead is in `rq`. -/
theorem mem_pending {w : Work} {b : Block} (hb : b ∈ w.pending) : b ∈ w.rq := by
  unfold Work.pending at hb
  by_cases hidle : w.phase = .idle
  · rw [if_pos hidle] at hb
    exact hb
  · rw [if_neg hidle] at hb
    exact List.mem_of_mem_tail hb

/-- A session that is held is in the table. -/
theorem held_some {w : Work} {n : Int32} {x : Sess} (h : w.held n = some x) :
    getFd w.fds n = some x := by
  unfold Work.held at h
  split at h
  · cases h
  · exact h

/-- A move of its worker serves a connection. -/
theorem Serving.moved {w w' : Work} {calls evs : List Ev} {c : Conn} {a : Accepted}
    {conns : List Accepted} {i : Int32} (h : Serving w calls c a) (ha : conns[c]? = some a)
    (hmarks : Marked (Known conns i) w)
    (hmoved : Moved w.pending w.held evs w'.pending w'.held) :
    Serving w' (calls ++ evs) c a := by
  rcases h with ⟨st, hrun, hstage⟩
  have hbs : ∀ b ∈ w.pending, b.conn = some c → b.fd = a.fd := by
    intro b hb hconn
    have hknown := hmarks.rq b (mem_pending hb)
    rw [hconn] at hknown
    exact (hknown.eq ha).1
  have hsess : ∀ n x, w.held n = some x → x.conn = some c → n = a.fd := by
    intro n x hx hconn
    have hknown := hmarks.fds n x (held_some hx)
    rw [hconn] at hknown
    exact (hknown.eq ha).1
  rcases hstage.moved hmoved hbs hsess with ⟨st', hstep, hstage'⟩
  refine ⟨st', ?_, hstage'⟩
  rw [eventsOf_append, exec_append, hrun]
  exact hstep

/-- **A worker serves every connection**: its step is a move, and a move is a step of the
service. -/
theorem Delivering.work {s : Sys} (h : Delivering s) {i : Int32} {l : WorkLbl} {w : Work}
    {evs : List Ev} (hl : l.Calm (s.works i)) (hstep : WorkStep i (s.works i) l w evs) :
    Delivering { s with works := Function.update s.works i w, calls := s.calls ++ evs } := by
  have hmarks := h.synced.marks i
  have hmoved := hstep.moved (h.synced.follows i)
    (fun fd x hx => (hmarks.fds fd x hx).ne_none) hl
  have hseen : ∀ e ∈ evs, ∃ fd, Known s.conns i fd e.conn :=
    hmoved.seen (P := Known s.conns i) (fun b hb => hmarks.rq b (mem_pending hb))
      (fun n x hx => hmarks.fds n x (held_some hx))
  refine ⟨h.synced.work hstep, ?_, ?_⟩
  · intro e he
    rcases List.mem_append.mp he with hold | hnew
    · exact h.seen e hold
    · exact ⟨i, hseen e hnew⟩
  · intro c a ha
    have hserves := h.serves c a ha
    by_cases hi : a.idx = i
    · rw [hi] at hserves
      simp only [hi, Function.update_self]
      exact hserves.moved ha hmarks hmoved
    · -- nothing is seen of a connection of another worker
      rcases hserves with ⟨st, hrun, hstage⟩
      simp only [Function.update_of_ne hi]
      refine ⟨st, ?_, hstage⟩
      rw [eventsOf_append_other]
      · exact hrun
      · intro e he hconn
        rcases hseen e he with ⟨fd, hknown⟩
        rw [hconn] at hknown
        exact hi (hknown.eq ha).2.symm

/-! ## Steps of the master -/

/-- A new block in `rq` that is neither the `BLK_OPEN` of the connection nor a message. -/
theorem Serving.push {w : Work} {calls : List Ev} {c : Conn} {a : Accepted}
    {o : Int32 → Option Conn} (h : Serving w calls c a) (hf : Follows w o) {blk : Block}
    (hblk : blk.type = .blkClose ∨ blk.conn ≠ some c) :
    Serving (w.enqueue blk) calls c a := by
  rcases h with ⟨st, hrun, hstage⟩
  have hother : ∀ t : MemBlockType, t ≠ .blkClose → blk.type = t → blk.conn ≠ some c := by
    intro t ht htype
    rcases hblk with hclose | hconn
    · exact absurd (htype.symm.trans hclose) ht
    · exact hconn
  have hpush := hstage.push (hother .blkOpen (by simp))
  have hnone : dataOf c [blk] = [] := dataOf_other (hother .blkData (by simp))
  rw [hnone, Service.add_nil] at hpush
  refine ⟨st, hrun, ?_⟩
  rw [hf.pending_push]
  exact hpush

/-- A message is framed and pushed. -/
theorem Serving.frame {w : Work} {calls : List Ev} {c : Conn} {a : Accepted}
    {o : Int32 → Option Conn} (h : Serving w calls c a) (hf : Follows w o) {blk : Block}
    (htype : blk.type = .blkData) (hconn : blk.conn = some c) :
    Serving (w.enqueue blk) (calls ++ [.framed c blk.data]) c a := by
  rcases h with ⟨st, hrun, hstage⟩
  have hno : blk.type = .blkOpen → blk.conn ≠ some c := by simp [htype]
  have hpush := hstage.push hno
  have hdata : dataOf c [blk] = [blk.data] := dataOf_self htype hconn
  rw [hdata] at hpush
  refine ⟨st.add [blk.data], ?_, ?_⟩
  · rw [eventsOf_append, eventsOf_self (.framed c blk.data) rfl]
    exact exec_concat hrun (serve_framed c blk.data st)
  · rw [hf.pending_push]
    exact hpush

/-- A push that is not about the connection, or closes it. -/
theorem Serving.pushRq {s : Sys} {calls : List Ev} {c : Conn} {a : Accepted}
    {o : Int32 → Option Conn} (h : Serving (s.works a.idx) calls c a)
    (hf : Follows (s.works a.idx) o) (idx : Int32) {blk : Block}
    (hblk : blk.type = .blkClose ∨ blk.conn ≠ some c) :
    Serving ((s.pushRq idx blk true).works a.idx) calls c a := by
  by_cases hi : a.idx = idx
  · rw [← hi, pushRq_self]
    exact h.push hf hblk
  · rw [pushRq_other s hi]
    exact h

/-- `do_fd_close` tells the worker, which still has to serve what comes before. -/
theorem Delivering.doFdClose {s : Sys} (h : Delivering s) {fd : Int32}
    (hslot : ¬ (s.slots fd).Other) : Delivering (doFdClose fd true s) := by
  refine ⟨h.synced.doFdClose hslot, ?_, ?_⟩
  · rw [doFdClose_calls, doFdClose_conns]
    exact h.seen
  · rw [doFdClose_calls, doFdClose_conns]
    rcases doFdClose_works fd true s with ⟨_, heq⟩ | ⟨_, heq⟩
    · rw [heq]
      exact h.serves
    · rw [heq]
      exact fun c a ha => (h.serves c a ha).pushRq (h.synced.follows a.idx) _ (Or.inl rfl)

/-- What the workers have sent is not about their service. -/
theorem Delivering.popSq {s : Sys} (h : Delivering s) (j : Int32) : Delivering (s.popSq j) := by
  refine ⟨h.synced.popSq j, h.seen, fun c a ha => ?_⟩
  have hserves := h.serves c a ha
  by_cases hj : a.idx = j
  · rw [hj] at hserves ⊢
    rw [popSq_self]
    exact hserves
  · rw [popSq_other s hj]
    exact hserves

/-- A message is framed, and its block is the last in `rq`. -/
theorem Delivering.frame {s : Sys} (h : Delivering s) {fd idx : Int32} {conn : Conn}
    (hslot : s.slots fd = .cli idx conn) (data : List UInt8) :
    Delivering ((s.framed conn data).pushRq idx (msgBlock idx fd data conn) true) := by
  have hknown := h.synced.slots fd idx conn hslot
  refine ⟨(h.synced.pushData hslot data).congr _ _, ?_, ?_⟩
  · rw [pushRq_calls, pushRq_conns]
    intro e he
    rcases List.mem_append.mp he with hold | hnew
    · exact h.seen e hold
    · rw [List.mem_singleton.mp hnew]
      exact ⟨idx, fd, hknown⟩
  · rw [pushRq_calls, pushRq_conns]
    intro c a ha
    have hserves := h.serves c a ha
    have hf := h.synced.follows a.idx
    by_cases hc : conn = c
    · rw [hc] at hknown ⊢
      rw [(hknown.eq ha).2, pushRq_self]
      exact hserves.frame hf rfl rfl
    · refine Serving.pushRq (s := s.framed conn data) ?_ hf idx (Or.inr ?_)
      swap
      · simpa [msgBlock] using hc
      rcases hserves with ⟨st, hrun, hstage⟩
      refine ⟨st, ?_, hstage⟩
      have hother : eventsOf c (s.framed conn data).calls = eventsOf c s.calls :=
        eventsOf_append_other (by simpa [Ev.conn] using hc) s.calls
      rw [hother]
      exact hrun

/-- A new connection starts its service, and the others go on. -/
theorem Delivering.accept {s : Sys} (h : Delivering s) {a : Accepted}
    (hfree : s.slots a.fd = .null ∨ s.slots a.fd = .fresh) (haddr : a.addr.length = addrLen) :
    Delivering ((s.register a).pushRq a.idx (a.openBlock s.conns.length) true) := by
  refine ⟨h.synced.accept hfree haddr, ?_, ?_⟩
  · rw [pushRq_calls, pushRq_conns, register_conns]
    intro e he
    rcases h.seen e he with ⟨i, fd, hknown⟩
    exact ⟨i, fd, hknown.append a⟩
  · rw [pushRq_calls, pushRq_conns, register_conns]
    intro c a' ha'
    have hf := h.synced.follows a'.idx
    by_cases hc : c < s.conns.length
    · rw [List.getElem?_append_left hc] at ha'
      refine Serving.pushRq (h.serves c a' ha') hf a.idx (Or.inr ?_)
      intro heq
      exact absurd (Option.some.inj heq) (Nat.ne_of_gt hc)
    · -- the connection that is accepted now
      have hlt := (List.getElem?_eq_some_iff.mp ha').1
      have hlen : c = s.conns.length := by
        rw [List.length_append, List.length_singleton] at hlt
        exact Nat.le_antisymm (Nat.le_of_lt_succ hlt) (Nat.le_of_not_lt hc)
      have hnew : a' = a := by
        rw [hlen, List.getElem?_concat_length] at ha'
        exact (Option.some.inj ha').symm
      have hunknown : ∀ i fd, ¬ Known s.conns i fd (some c) := fun i fd hknown => hc hknown.lt
      rw [hnew, ← hlen]
      refine ⟨.waiting [], ?_, ?_⟩
      · rw [eventsOf_other]
        · rfl
        · intro e he heq
          rcases h.seen e he with ⟨i, fd, hknown⟩
          rw [heq] at hknown
          exact hunknown i fd hknown
      · rw [pushRq_self, register_works, (h.synced.follows a.idx).pending_push]
        refine stage_init (fun b hb hconn => ?_) fun x hx hconn => ?_
        · have hknown := (h.synced.marks a.idx).rq b (mem_pending hb)
          rw [hconn] at hknown
          exact hunknown _ _ hknown
        · have hknown := (h.synced.marks a.idx).fds a.fd x (held_some hx)
          rw [hconn] at hknown
          exact hunknown _ _ hknown

/-- **The master serves every connection**, as long as no push to `rq` fails. -/
theorem Delivering.master {s t : Sys} {l : MasterLbl} (h : Delivering s) (hl : l.Pushed)
    (hstep : MasterStep s l t) : Delivering t := by
  cases hstep with
  | accept _ _ _ hfree haddr => exact h.accept hfree haddr
  | acceptLost => cases hl
  | frame data _ hslot => exact h.frame hslot data
  | frameLost => cases hl
  | hangup noted hslot =>
    rw [show noted = true from hl]
    exact h.doFdClose (cli_not_other hslot)
  | @mqSend i blk rest taken alive noted hsq =>
    rw [show noted = true from hl]
    refine Delivering.popSq ?_ i
    have heff : Delivering { s with
        effects := s.effects ++ effectsOf blk taken (s.slots blk.fd) } :=
      ⟨h.synced.congr s.calls _, h.seen, h.serves⟩
    rcases doBlkSend_cases blk taken alive true s with ⟨_, heq⟩ | heq
    · rw [heq]
      exact heff
    · rw [heq]
      exact heff.doFdClose (h.synced.not_other hsq)

/-- **Every connection gets good service.** In every run in which no push to `rq`
fails and no `on_cli_closed` calls `close_cli`, all that is seen is about accepted
connections, and what is seen of each is good service with the session of its own
`BLK_OPEN`. -/
theorem connections_served (listeners : Int32 → Option Int32) {ls : List Lbl} {s : Sys}
    (hcalm : Along sysStep Calm ls (sysInit listeners))
    (hrun : exec sysStep ls (sysInit listeners) = some s) :
    (∀ e ∈ s.calls, ∃ c a, e.conn = some c ∧ s.conns[c]? = some a) ∧
    ∀ c a, s.conns[c]? = some a → Served (a.toSess c) (eventsOf c s.calls) := by
  have hdelivering : Delivering s := by
    refine exec_invariant _ ?_ (delivering_init listeners) hcalm hrun
    intro l s t hs hl hstep
    rcases sysStep_cases hstep with ⟨ml, heq, hmaster⟩ | ⟨i, wl, w, evs, heq, hwork, ht⟩
    · rw [heq] at hl
      exact hs.master hl hmaster
    · rw [heq] at hl
      rw [ht]
      exact hs.work hl hwork
  constructor
  · intro e he
    rcases hdelivering.seen e he with ⟨_, _, c, a, hconn, ha, _⟩
    exact ⟨c, a, hconn, ha⟩
  · intro c a ha
    rcases hdelivering.serves c a ha with ⟨st, hserve, _⟩
    exact served_of_exec hserve

/-- A client sends two messages and hangs up, and the next one is accepted with its
number and sends one. The worker closes the first client in the first message. -/
def reopened : List Lbl :=
  [.master (.accept 3 5 [127, 0, 0, 1, 80, 0] true true), .work 0 (.recv true), .work 0 .pop,
    .master (.frame 5 [1] true true), .master (.frame 5 [2] true true), .work 0 (.recv true),
    .work 0 (.closeCli 5 true), .work 0 .closedRet, .master (.hangup 5 true),
    .master (.accept 3 5 [127, 0, 0, 1, 81, 0] true true), .master (.frame 5 [3] true true),
    .work 0 (.procRet 0 true), .work 0 .pop, .work 0 (.recv true), .work 0 .pop,
    .work 0 (.recv true), .work 0 .pop, .work 0 (.recv true), .work 0 .pop, .work 0 (.recv true)]

/-- The second connection on a descriptor gets its own session and its own message. -/
theorem connections_served_reopened :
    ∃ s, exec sysStep reopened (sysInit oneListener) = some s ∧
      procsOf (eventsOf 1 s.calls) = [[3]] ∧
      Served (Accepted.toSess ⟨5, 0, [127, 0, 0, 1, 81, 0]⟩ 1) (eventsOf 1 s.calls) := by
  have hsome : (exec sysStep reopened (sysInit oneListener)).isSome := by decide +kernel
  have hfacts : ∀ s ∈ exec sysStep reopened (sysInit oneListener),
      procsOf (eventsOf 1 s.calls) = [[3]] ∧
        s.conns[1]? = some ⟨5, 0, [127, 0, 0, 1, 81, 0]⟩ := by
    decide +kernel
  have hcalm : Along sysStep Calm reopened (sysInit oneListener) := by decide +kernel
  rcases Option.isSome_iff_exists.mp hsome with ⟨s, hrun⟩
  rcases hfacts s hrun with ⟨hprocs, hconn⟩
  exact ⟨s, hrun, hprocs, (connections_served oneListener hcalm hrun).2 1 _ hconn⟩

end SServer.Proto
