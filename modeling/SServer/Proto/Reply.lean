import Mathlib.Data.List.Infix
import SServer.Net.Header
import SServer.Proto.Delivery
import SServer.Proto.Reuse
import SServer.Proto.Sessions

/-!
# SServer.Proto.Reply — a service that answers every message

The system of `SServer.Proto.Model` with the callbacks of a request and reply
service: `proc_cli_msg` sends one answer to the client whose message it has got and
returns what `send_to_cli` returned, no callback closes a client on its own, and
timers send nothing. `test_serv` is such a service, its answer is the message.

A message takes the whole way: from `handle_cli` through `rq` to `proc_cli_msg`, the
answer through `sq` to `do_blk_send`. What is shown at the end is about both ends of
it: what has been written to a connection, against what was framed from it.

* `Answering`: the invariant: each open connection has been written the answers to the messages
  that have gone the whole way, and the rest of them is on its way in `sq`, still in the worker,
  or in `rq`.
* `WorkStep.answers`, `Answers.due`: a step of a worker, and what it does to what a connection
  is owed.
* `Got.mqSend`: the master handles a block of `sq`: the answer goes to its own connection.
* `replies_in_order`: the bytes written are a prefix of the answers, in every such run.
* `Answering.all_answered`: with empty queues and no failed push they are all of them.
* `echoed`: `test_serv`: what is written is what was framed, for messages of at most 65536 bytes
  that say their own length.

The conditions are those of `Smooth`; each of them is needed by an example of another module.
What is written here is what a connection has taken, from the socket's point of view: when it
arrives at the peer is the network's concern.
-/

namespace SServer.Proto

open SServer.Lib SServer.Queue SServer.Worker

/-! ## The service -/

/-- `proc_cli_msg` of `test_serv`: the `pkg->len` bytes from `msg` on, which it copies and
sends. Its copy has room for 65536 bytes. -/
def echo (msg : List UInt8) : List UInt8 :=
  bytes (ofBytes msg) (Net.getMsgLen (ofBytes msg) msg.length).toInt

/-- The system, and for each worker in `proc_cli_msg` what its `send_to_cli` has returned. -/
structure ReplySt where
  sys : Sys
  sent : Int32 → Option Bool

/-- The system at its beginning, with no answer sent. -/
def replyInit (listeners : Int32 → Option Int32) : ReplySt :=
  { sys := sysInit listeners, sent := fun _ => none }

/-- The block whose message `proc_cli_msg` has got. -/
def Work.asked (w : Work) : Option Block :=
  match w.phase with
  | .inProc _ => w.rq.head?
  | _ => none

/-- What the callbacks do: one answer to the message, to its own client, and then the
return, with `-1` when the answer was refused. -/
def ReplyAllows (answer : List UInt8 → List UInt8) : Lbl → ReplySt → Prop
  | .work i (.sendToCli fd msg _), s =>
    s.sent i = none ∧ (s.sys.works i).phase = .inProc fd ∧
      (s.sys.works i).asked.map (fun blk => answer blk.data) = some msg
  | .work i (.procRet r _), s => (s.sent i).map (fun ok => if ok then 0 else -1) = some r
  | .work _ (.closeCli _ _), _ => False
  | _, _ => True

instance (answer : List UInt8 → List UInt8) : ∀ l s, Decidable (ReplyAllows answer l s)
  | .work i (.sendToCli fd msg _), s => inferInstanceAs (Decidable
      (s.sent i = none ∧ (s.sys.works i).phase = .inProc fd ∧
        (s.sys.works i).asked.map (fun blk => answer blk.data) = some msg))
  | .work i (.procRet r _), s => inferInstanceAs (Decidable
      ((s.sent i).map (fun ok => if ok then 0 else -1) = some r))
  | .work _ (.closeCli _ _), _ => isFalse id
  | .work _ (.recv _), _ | .work _ (.recvGarbled _ _), _ | .work _ .closedRet, _
  | .work _ .pop, _ | .master _, _ => isTrue trivial

/-- What `send_to_cli` has returned, behind a step. -/
def sentAfter (sent : Int32 → Option Bool) : Lbl → Int32 → Option Bool
  | .work i (.sendToCli _ _ pushed) => Function.update sent i (some pushed)
  | .work i (.procRet _ _) => Function.update sent i none
  | _ => sent

/-- One step of the system with such a service. -/
def replyStep (answer : List UInt8 → List UInt8) (l : Lbl) (s : ReplySt) : Option ReplySt :=
  if ReplyAllows answer l s then
    (sysStep l s.sys).map fun t => { sys := t, sent := sentAfter s.sent l }
  else none

/-! ## Both ends -/

/-- The bytes that have been written to the socket of a connection. -/
def wroteTo (c : Conn) (effects : List Effect) : List UInt8 :=
  effects.flatMap fun
    | .wrote _ sock data => if sock = c then data else []
    | .closed _ _ => []

/-- The payloads in `sq` that are to be written to a connection. -/
def repliesOf (c : Conn) (sq : List Block) : List (List UInt8) :=
  sq.filterMap fun blk =>
    if blk.type ≠ .blkClose ∧ blk.conn = some c then some blk.data else none

/-- A connection that stays open takes its block whole: what the kernel leaves of it at the
call has a place in `sbf`. When `do_fd_send` ends at the first allocation of `sbf`, the rest of
the block is dropped and never sent, and the condition fails. -/
def Whole : Lbl → Sys → Prop
  | .master (.mqSend i taken alive _), s =>
    alive = true → ∀ blk ∈ (s.works i).sq.head?, blk.data.length ≤ taken
  | _, _ => True

/-- The condition on a step: no push to `rq` fails, no block takes effect on a descriptor
that has been accepted again, and no open connection leaves a part of a block. -/
structure Smooth (l : Lbl) (s : ReplySt) : Prop where
  calm : Calm l s.sys
  notReused : NotReused l s.sys
  whole : Whole l s.sys

instance (blk : Block) (s : Sys) : Decidable (Reaccepted blk s) :=
  decidable_of_iff (∃ c ∈ List.range s.conns.length, (∃ k ∈ blk.conn, k < c) ∧
      ∃ a ∈ s.conns[c]?, a.fd = blk.fd) (by
    constructor
    · rintro ⟨c, _, ⟨k, hk, hlt⟩, a, ha, hfd⟩
      exact ⟨k, c, a, hk, hlt, ha, hfd⟩
    · rintro ⟨k, c, a, hk, hlt, ha, hfd⟩
      have hc := (List.getElem?_eq_some_iff.mp ha).1
      exact ⟨c, List.mem_range.mpr hc, ⟨k, hk, hlt⟩, a, ha, hfd⟩)

instance (blk : Block) (taken : Nat) (s : Sys) : Decidable (TakesEffect blk taken s) :=
  decidable_of_iff ((s.slots blk.fd).conn.isSome = true ∧
      (blk.type = .blkClose ∨ blk.data.take taken ≠ [])) (by
    refine and_congr_left fun _ => ?_
    cases s.slots blk.fd <;> simp [Slot.conn])

instance : ∀ (l : Lbl) (s : Sys), Decidable (NotReused l s)
  | .master (.mqSend i taken _ _), s => inferInstanceAs (Decidable
      (∀ blk ∈ (s.works i).sq.head?, TakesEffect blk taken s → ¬ Reaccepted blk s))
  | .master (.accept _ _ _ _ _), _ | .master (.frame _ _ _ _), _ | .master (.hangup _ _), _
  | .work _ _, _ => isTrue trivial

instance : ∀ (l : Lbl) (s : Sys), Decidable (Whole l s)
  | .master (.mqSend i taken alive _), s => inferInstanceAs (Decidable
      (alive = true → ∀ blk ∈ (s.works i).sq.head?, blk.data.length ≤ taken))
  | .master (.accept _ _ _ _ _), _ | .master (.frame _ _ _ _), _ | .master (.hangup _ _), _
  | .work _ _, _ => isTrue trivial

instance (l : Lbl) (s : ReplySt) : Decidable (Smooth l s) :=
  decidable_of_iff (Calm l s.sys ∧ NotReused l s.sys ∧ Whole l s.sys)
    ⟨fun h => ⟨h.1, h.2.1, h.2.2⟩, fun h => ⟨h.calm, h.notReused, h.whole⟩⟩

/-! ## What is owed to a connection -/

variable {answer : List UInt8 → List UInt8}

/-- What a worker owes a connection: `out` are its answers so far, `asked` the answers to
the messages that `proc_cli_msg` has got from it. While its message is being
processed the last answer may be missing; afterwards none is, but for one that was
refused, and then the session is over. -/
structure Due (answer : List UInt8 → List UInt8) (c : Conn) (now : Option Block)
    (sent : Option Bool) (out asked : List (List UInt8)) (closings : Nat) : Prop where
  busy : ∀ blk ∈ now, blk.conn = some c →
    (sent = none → out ++ [answer blk.data] = asked) ∧ (sent = some true → out = asked) ∧
      (sent = some false → out <+: asked)
  free : (∀ blk ∈ now, blk.conn ≠ some c) → out = asked ∨ 0 < closings ∧ out <+: asked

/-- No answer comes before its message, or out of order. -/
theorem Due.in_order {c : Conn} {now : Option Block} {sent : Option Bool}
    {out asked : List (List UInt8)} {closings : Nat}
    (h : Due answer c now sent out asked closings) : out <+: asked := by
  by_cases hother : ∀ blk ∈ now, blk.conn ≠ some c
  · rcases h.free hother with heq | ⟨_, hpre⟩
    · exact heq ▸ List.prefix_refl out
    · exact hpre
  · simp only [not_forall, not_not] at hother
    rcases hother with ⟨blk, hmem, hconn⟩
    rcases h.busy blk hmem hconn with ⟨hnone, htrue, hfalse⟩
    cases sent with
    | none => exact ⟨_, hnone rfl⟩
    | some ok =>
      cases ok with
      | true => exact htrue rfl ▸ List.prefix_refl out
      | false => exact hfalse rfl

/-- What connection `c`, accepted as `a`, has got: `done` are the payloads the master has
taken from `sq` for it. -/
structure Got (answer : List UInt8 → List UInt8) (s : ReplySt) (c : Conn) (a : Accepted)
    (done : List (List UInt8)) : Prop where
  due : Due answer c (s.sys.works a.idx).asked (s.sent a.idx)
    (done ++ repliesOf c (s.sys.works a.idx).sq)
    ((procsOf (eventsOf c s.sys.calls)).map answer) (closingsOf (eventsOf c s.sys.calls))
  wrote : wroteTo c s.sys.effects <+: done.flatten
  all : ∀ idx, s.sys.slots a.fd = .cli idx c → wroteTo c s.sys.effects = done.flatten

/-- What `proc_cli_msg` of a worker is at: the oldest block of `rq`, a message of a client
whose session the worker has. -/
structure Replying (w : Work) (sent : Option Bool) : Prop where
  called : ∀ fd, w.phase = .inProc fd → w.closing = [] ∧ ∃ blk rest x, w.rq = blk :: rest ∧
    blk.fd = fd ∧ getFd w.fds fd = some x ∧ x.conn = blk.conn
  sending : sent ≠ none → ∃ fd, w.phase = .inProc fd

/-- The invariant. -/
structure Answering (answer : List UInt8 → List UInt8) (s : ReplySt) : Prop where
  delivering : Delivering s.sys
  aged : Aged s.sys
  replying : ∀ i, Replying (s.sys.works i) (s.sent i)
  socks : ∀ e ∈ s.sys.effects, e.sock < s.sys.conns.length
  got : ∀ c a, s.sys.conns[c]? = some a → ∃ done, Got answer s c a done

/-- Nothing has been framed. -/
theorem answering_init (listeners : Int32 → Option Int32) :
    Answering answer (replyInit listeners) where
  delivering := delivering_init listeners
  aged := aged_init listeners
  replying := fun _ => ⟨fun _ h => (nomatch h), fun h => absurd rfl h⟩
  socks := fun _ he => (List.not_mem_nil he).elim
  got := fun _ _ ha => (nomatch ha)

/-! ## Steps of a worker -/

/-- What a worker's step is to the connections: nothing; a message comes to
`proc_cli_msg`; its answer is pushed, or refused; `proc_cli_msg` returns, and behind a
refused answer the client is closed. -/
inductive Answers (answer : List UInt8 → List UInt8) (w w' : Work) :
    List Ev → Option Bool → Option Bool → Prop where
  | idle {evs : List Ev} (hbefore : w.asked = none) (hafter : w'.asked = none)
      (hsq : w'.sq = w.sq) (hevs : ∀ e ∈ evs, ∀ o data x, e ≠ .proc o data x) :
      Answers answer w w' evs none none
  | asked {blk : Block} {x : Sess} (hbefore : w.asked = none) (hafter : w'.asked = some blk)
      (hsq : w'.sq = w.sq) : Answers answer w w' [.proc blk.conn blk.data x] none none
  | sent {blk : Block} (reply : Block) (pushed : Bool) (hbefore : w.asked = some blk)
      (hafter : w'.asked = some blk) (hsq : w'.sq = if pushed then w.sq ++ [reply] else w.sq)
      (htype : reply.type ≠ .blkClose) (hconn : reply.conn = blk.conn)
      (hdata : reply.data = answer blk.data) : Answers answer w w' [] none (some pushed)
  | returned {blk : Block} (hbefore : w.asked = some blk) (hafter : w'.asked = none)
      (hsq : w'.sq = w.sq) : Answers answer w w' [] (some true) none
  | refused {blk : Block} {x : Sess} (hbefore : w.asked = some blk) (hafter : w'.asked = none)
      (hsq : ∀ c, repliesOf c w'.sq = repliesOf c w.sq) (hconn : x.conn = blk.conn) :
      Answers answer w w' [.onClosed x] (some false) none

/-- Outside of `proc_cli_msg` no block is being answered. -/
theorem asked_of_phase {w : Work} (h : ∀ fd, w.phase ≠ .inProc fd) : w.asked = none := by
  unfold Work.asked
  cases hphase : w.phase with
  | inProc fd => exact absurd hphase (h fd)
  | idle | inClosed fd | handled => rfl

/-- Inside it is the oldest one. -/
theorem asked_inProc {w : Work} {fd : Int32} {blk : Block} {rest : List Block}
    (hphase : w.phase = .inProc fd) (hrq : w.rq = blk :: rest) : w.asked = some blk := by
  unfold Work.asked
  rw [hphase, hrq]
  rfl

/-- Without a `proc_cli_msg` nothing has been sent. -/
theorem Replying.quiet {w : Work} {r : Option Bool} (h : Replying w r)
    (hphase : ∀ fd, w.phase ≠ .inProc fd) : r = none := by
  by_contra hne
  rcases h.sending hne with ⟨fd, hfd⟩
  exact hphase fd hfd

/-- Outside of it nothing has been sent. -/
theorem replying_quiet {w : Work} (hphase : ∀ fd, w.phase ≠ .inProc fd) : Replying w none :=
  ⟨fun fd hfd => absurd hfd (hphase fd), fun h => absurd rfl h⟩

/-- A `BLK_CLOSE` is no answer. -/
theorem repliesOf_close (c : Conn) (w : Work) (i fd : Int32) (o : Option Conn) (pushed : Bool) :
    repliesOf c (w.pushSq (closeBlock i fd o) pushed).sq = repliesOf c w.sq := by
  cases pushed with
  | false => rfl
  | true => simp [Work.pushSq, repliesOf, closeBlock]

/-- **The steps of a worker that runs the service.** -/
theorem WorkStep.answers {s : ReplySt} {i : Int32} {l : WorkLbl} {w : Work} {evs : List Ev}
    (h : Answering answer s) (hallow : ReplyAllows answer (.work i l) s)
    (hstep : WorkStep i (s.sys.works i) l w evs) :
    Answers answer (s.sys.works i) w evs (s.sent i) (sentAfter s.sent (.work i l) i) ∧
      Replying w (sentAfter s.sent (.work i l) i) := by
  have hrep := h.replying i
  cases hstep with
  | @recv blk rest pushed hidle hclosing _ hrq =>
    have hphase : ∀ fd, (s.sys.works i).phase ≠ .inProc fd := by simp [hidle]
    have hnone := hrep.quiet hphase
    have hbefore := asked_of_phase hphase
    simp only [sentAfter, hnone]
    -- the session of the block's number is the one its connection was opened with
    have hmarks := h.delivering.synced.marks i
    rcases (h.delivering.synced.follows i).oldest hidle hrq blk.fd with ⟨cur, cur', hold⟩
    have hsess := fun x hx => And.intro (hold.sess x hx) (hmarks.fds blk.fd x hx).ne_none
    rcases handleBlock_cases pushed hold.step hsess with
      ⟨_, _, _, _, heq⟩ | ⟨_, _, heq⟩ | ⟨x, hx, hconn, ⟨htype, _, heq⟩ | ⟨_, _, heq⟩⟩
    · rw [heq]
      exact ⟨.idle hbefore (asked_of_phase (by simp)) rfl (by simp), replying_quiet (by simp)⟩
    · rw [heq]
      exact ⟨.idle hbefore (asked_of_phase (by simp)) rfl (by simp), replying_quiet (by simp)⟩
    · -- a message of a client that has its session
      rw [heq]
      refine ⟨.asked hbefore (asked_inProc rfl hrq) rfl, ?_⟩
      refine ⟨fun fd hfd => ⟨hclosing, blk, rest, x, hrq, ?_, ?_, hconn⟩, fun hne => absurd rfl hne⟩
      · exact Phase.inProc.inj hfd
      · rw [← Phase.inProc.inj hfd]
        exact hx
    · rw [heq]
      exact ⟨.idle hbefore (asked_of_phase (by simp)) rfl (by simp), replying_quiet (by simp)⟩
  -- in step with the queue, no block is garbled
  | recvGarbled _ _ _ _ hgarbled =>
    rw [(h.delivering.synced.follows i).sane] at hgarbled
    cases hgarbled
  | @procRet fd pushed hphase =>
    rcases hrep.called fd hphase with ⟨_, blk, rest, x, hrq, _⟩
    -- the call answers what `mq_push` has answered to its block
    have hsent : s.sent i = some true := by
      simp only [ReplyAllows, Option.map_eq_some_iff] at hallow
      rcases hallow with ⟨ok, hok, hr⟩
      cases ok with
      | true => exact hok
      | false => cases hr
    simp only [sentAfter, Function.update_self, hsent]
    exact ⟨.returned (asked_inProc hphase hrq) (asked_of_phase (by simp)) rfl,
      replying_quiet (by simp)⟩
  | @procErr fd r w' evs pushed hr hphase _ hclose =>
    rcases hrep.called fd hphase with ⟨_, blk, rest, x, hrq, _, hx, hconn⟩
    have hsent : s.sent i = some false := by
      simp only [ReplyAllows, Option.map_eq_some_iff] at hallow
      rcases hallow with ⟨ok, hok, heq⟩
      cases ok with
      | true => exact absurd heq.symm hr
      | false => exact hok
    simp only [sentAfter, Function.update_self, hsent]
    -- `close_cli` finds the session, and may push a `BLK_CLOSE` behind the answers
    rcases closeCli_cases hclose with ⟨hnone, _, _⟩ | ⟨y, hy, hevs, hw⟩
    · exact absurd (hx.symm.trans hnone) (by simp)
    · rw [Option.some.inj (hx.symm.trans hy)] at hconn
      rcases pushSq_frame { s.sys.works i with phase := .handled } (closeBlock i fd y.conn) pushed
        with ⟨_, hphase', _⟩
      have hafter : ∀ n, w.phase ≠ .inProc n := by
        intro n
        rw [hw]
        simp only [hphase']
        simp
      rw [hevs]
      refine ⟨.refused (asked_inProc hphase hrq) (asked_of_phase hafter) (fun c => ?_) hconn,
        replying_quiet hafter⟩
      rw [hw]
      exact repliesOf_close c _ i fd y.conn pushed
  -- inside `on_cli_closed` no message is being processed
  | @cliRet fd rest hclosing =>
    have hphase : ∀ n, (s.sys.works i).phase ≠ .inProc n := by
      intro n hn
      have hnil := (hrep.called n hn).1
      rw [hclosing] at hnil
      cases hnil
    simp only [sentAfter, hrep.quiet hphase]
    exact ⟨.idle (asked_of_phase hphase) (asked_of_phase hphase) rfl (by simp),
      replying_quiet hphase⟩
  | @blkRet fd _ hphase =>
    have hbefore : ∀ n, (s.sys.works i).phase ≠ .inProc n := by simp [hphase]
    simp only [sentAfter, hrep.quiet hbefore]
    exact ⟨.idle (asked_of_phase hbefore) (asked_of_phase (by simp)) rfl (by simp),
      replying_quiet (by simp)⟩
  | pop hphase =>
    have hbefore : ∀ n, (s.sys.works i).phase ≠ .inProc n := by simp [hphase]
    simp only [sentAfter, hrep.quiet hbefore]
    exact ⟨.idle (asked_of_phase hbefore) (asked_of_phase (by simp)) rfl (by simp),
      replying_quiet (by simp)⟩
  | @sendToCli fd x msg pushed hx =>
    rcases hallow with ⟨hnone, hphase, hmsg⟩
    rcases hrep.called fd hphase with ⟨hclosing, blk, rest, y, hrq, hfd, hy, hconn⟩
    rw [Option.some.inj (hy.symm.trans hx)] at hconn
    have hbefore := asked_inProc hphase hrq
    rw [hbefore] at hmsg
    -- the block goes to the client that asked, with its number and its connection
    rcases pushSq_frame (s.sys.works i) ⟨.blkData, i, fd, msg, x.conn⟩ pushed with
      ⟨hrq', hphase', _, hfds', hclosing'⟩
    simp only [sentAfter, Function.update_self, hnone]
    constructor
    · refine .sent ⟨.blkData, i, fd, msg, x.conn⟩ pushed hbefore
        (asked_inProc (hphase'.trans hphase) (hrq'.trans hrq)) ?_ (by simp) hconn ?_
      · cases pushed <;> rfl
      · exact (Option.some.inj hmsg).symm
    · refine ⟨fun n hn => ?_, fun _ => ⟨fd, hphase'.trans hphase⟩⟩
      have heq := Phase.inProc.inj (hphase.symm.trans (hphase'.symm.trans hn))
      refine ⟨hclosing'.trans hclosing, blk, rest, x, hrq'.trans hrq, hfd.trans heq, ?_, hconn⟩
      rw [hfds', ← heq]
      exact hx
  | closeCli => exact hallow.elim

/-- One more block of `sq`. -/
theorem repliesOf_concat (c : Conn) (sq : List Block) (blk : Block) :
    repliesOf c (sq ++ [blk]) = repliesOf c sq ++ repliesOf c [blk] :=
  List.filterMap_append

/-- An answer in front. -/
theorem repliesOf_own {c : Conn} {blk : Block} {sq : List Block} (htype : blk.type ≠ .blkClose)
    (hconn : blk.conn = some c) : repliesOf c (blk :: sq) = blk.data :: repliesOf c sq :=
  List.filterMap_cons_some (if_pos ⟨htype, hconn⟩)

/-- A block in front that is no answer to this connection. -/
theorem repliesOf_other {c : Conn} {blk : Block} {sq : List Block}
    (h : blk.type ≠ .blkClose → blk.conn ≠ some c) : repliesOf c (blk :: sq) = repliesOf c sq :=
  List.filterMap_cons_none (if_neg fun hboth => h hboth.1 hboth.2)

/-- Steps that process nothing. -/
theorem procsOf_none {c : Conn} {evs : List Ev} (h : ∀ e ∈ evs, ∀ o data x, e ≠ .proc o data x) :
    procsOf (eventsOf c evs) = [] := by
  unfold procsOf
  rw [List.filterMap_eq_nil_iff]
  intro e he
  cases e with
  | proc o data x => exact absurd rfl (h _ (List.mem_filter.mp he).1 o data x)
  | framed | opened | onClosed => rfl

/-- **What a step of its worker does to what a connection is owed.** -/
theorem Answers.due {w w' : Work} {evs : List Ev} {r r' : Option Bool} {c : Conn}
    {done asked : List (List UInt8)} {closings : Nat} (hans : Answers answer w w' evs r r')
    (h : Due answer c w.asked r (done ++ repliesOf c w.sq) asked closings)
    (hopen : procsOf (eventsOf c evs) ≠ [] → closings = 0) :
    Due answer c w'.asked r' (done ++ repliesOf c w'.sq)
      (asked ++ (procsOf (eventsOf c evs)).map answer)
      (closings + closingsOf (eventsOf c evs)) := by
  cases hans with
  | idle hbefore hafter hsq hevs =>
    rw [procsOf_none hevs, hsq, hafter, List.map_nil, List.append_nil]
    rw [hbefore] at h
    refine ⟨fun b hb => absurd hb (Option.not_mem_none b), fun _ => ?_⟩
    rcases h.free (fun b hb => absurd hb (Option.not_mem_none b)) with heq | ⟨hpos, hpre⟩
    · exact Or.inl heq
    · exact Or.inr ⟨Nat.lt_of_lt_of_le hpos (Nat.le_add_right _ _), hpre⟩
  | @asked blk x hbefore hafter hsq =>
    rw [hsq, hafter]
    rw [hbefore] at h
    have hfree := h.free (fun b hb => absurd hb (Option.not_mem_none b))
    by_cases hconn : blk.conn = some c
    · -- its message comes to a session that has not been closed
      have hself : eventsOf c [Ev.proc blk.conn blk.data x] = [.proc blk.conn blk.data x] :=
        eventsOf_self _ hconn
      rw [hself] at hopen ⊢
      have hzero := hopen (by simp [procsOf])
      have heq := hfree.resolve_right fun hclosed => absurd hzero (Nat.ne_of_gt hclosed.1)
      constructor
      · intro b hb _
        cases hb
        refine ⟨fun _ => ?_, fun hr => absurd hr (by simp), fun hr => absurd hr (by simp)⟩
        rw [heq]
        rfl
      · exact fun hno => absurd hconn (hno blk rfl)
    · have hnil : eventsOf c [Ev.proc blk.conn blk.data x] = [] :=
        eventsOf_other (by simpa [Ev.conn] using hconn)
      rw [hnil]
      refine ⟨fun b hb hc => ?_, fun _ => by simpa [procsOf, closingsOf] using hfree⟩
      cases hb
      exact absurd hc hconn
  | @sent blk reply pushed hbefore hafter hsq htype hreply hdata =>
    rw [hafter]
    rw [hbefore] at h
    have hnil : (asked ++ (procsOf (eventsOf c [])).map answer) = asked := List.append_nil asked
    rw [hnil]
    by_cases hconn : blk.conn = some c
    · -- the answer is on its way exactly if its block was taken
      have hout := (h.busy blk rfl hconn).1 rfl
      refine ⟨fun b hb _ => ?_, fun hno => absurd hconn (hno blk rfl)⟩
      refine ⟨fun hr => absurd hr (by simp), fun hr => ?_, fun hr => ?_⟩
      · rw [hsq, if_pos (Option.some.inj hr), repliesOf_concat,
          repliesOf_own htype (hreply.trans hconn), hdata, ← List.append_assoc]
        exact hout
      · rw [hsq, Option.some.inj hr]
        exact ⟨_, hout⟩
    · -- the answer of another client changes nothing here
      have hsame : repliesOf c w'.sq = repliesOf c w.sq := by
        rw [hsq]
        cases pushed with
        | false => rfl
        | true =>
          rw [if_pos rfl, repliesOf_concat, repliesOf_other fun _ => hreply ▸ hconn]
          exact List.append_nil _
      rw [hsame]
      refine ⟨fun b hb hc => ?_, fun hno => h.free hno⟩
      cases hb
      exact absurd hc hconn
  | @returned blk hbefore hafter hsq =>
    rw [hafter, hsq]
    rw [hbefore] at h
    have hnil : (asked ++ (procsOf (eventsOf c [])).map answer) = asked := List.append_nil asked
    rw [hnil]
    refine ⟨fun b hb => absurd hb (Option.not_mem_none b), fun _ => ?_⟩
    by_cases hconn : blk.conn = some c
    · exact Or.inl ((h.busy blk rfl hconn).2.1 rfl)
    · refine h.free fun b hb => ?_
      cases hb
      exact hconn
  | @refused blk x hbefore hafter hsq hx =>
    rw [hafter, hsq c]
    rw [hbefore] at h
    -- `on_cli_closed` is a closing: from here on the answers may be a part
    rw [procsOf_none (by simp), List.map_nil, List.append_nil]
    refine ⟨fun b hb => absurd hb (Option.not_mem_none b), fun _ => ?_⟩
    by_cases hconn : blk.conn = some c
    · -- the client is closed
      have hself : eventsOf c [Ev.onClosed x] = [.onClosed x] := eventsOf_self _ (hx.trans hconn)
      rw [hself]
      exact Or.inr ⟨Nat.succ_pos _, (h.busy blk rfl hconn).2.2 rfl⟩
    · have hnil : eventsOf c [Ev.onClosed x] = [] :=
        eventsOf_other (by simpa [Ev.conn, hx] using hconn)
      rw [hnil]
      refine h.free fun b hb => ?_
      cases hb
      exact hconn

/-- Behind a closing of the session nothing is processed. -/
theorem Served.not_closed {x₀ : Sess} {evs evs' : List Ev} (h : Served x₀ (evs ++ evs'))
    (hproc : procsOf evs' ≠ []) : closingsOf evs = 0 := by
  by_contra hne
  have hpos : 0 < closingsOf evs := Nat.pos_of_ne_zero hne
  unfold closingsOf at hpos
  rcases List.countP_pos_iff.mp hpos with ⟨e, he, hclosed⟩
  cases e with
  | onClosed x =>
    rcases List.append_of_mem he with ⟨pre, post, hevs⟩
    have hafter := h.none_after pre x (post ++ evs') (by rw [hevs]; simp)
    apply hproc
    unfold procsOf
    rw [List.filterMap_eq_nil_iff]
    intro e' he'
    cases e' with
    | proc o data y => exact absurd (List.mem_append_right post he') (hafter o data y)
    | framed | opened | onClosed => rfl
  | framed | opened | proc => cases hclosed

/-- The payloads processed in two parts of a run. -/
theorem procsOf_append (evs evs' : List Ev) : procsOf (evs ++ evs') = procsOf evs ++ procsOf evs' :=
  List.filterMap_append

/-- The closings in two parts of a run. -/
theorem closingsOf_append (evs evs' : List Ev) :
    closingsOf (evs ++ evs') = closingsOf evs + closingsOf evs' :=
  List.countP_append

/-- What another worker has sent stays. -/
theorem sentAfter_other {i j : Int32} (hne : j ≠ i) (sent : Int32 → Option Bool) (l : WorkLbl) :
    sentAfter sent (.work i l) j = sent j := by
  cases l with
  | procRet | sendToCli => exact Function.update_of_ne hne _ _
  | recv | recvGarbled | closedRet | pop | closeCli => rfl

/-- **A worker's step keeps the invariant.** -/
theorem Answering.work {s : ReplySt} (h : Answering answer s) {i : Int32} {l : WorkLbl} {w : Work}
    {evs : List Ev} (hallow : ReplyAllows answer (.work i l) s)
    (hstep : WorkStep i (s.sys.works i) l w evs) :
    Answering answer
      { sys := { s.sys with
          works := Function.update s.sys.works i w, calls := s.sys.calls ++ evs }
        sent := sentAfter s.sent (.work i l) } := by
  have hl : l.Calm (s.sys.works i) := by
    cases l with
    | closeCli => exact hallow.elim
    | recv | recvGarbled | procRet | closedRet | pop | sendToCli => trivial
  have hdelivering := h.delivering.work hl hstep
  rcases hstep.answers h hallow with ⟨hans, hrep⟩
  refine ⟨hdelivering, h.aged.work hstep, fun j => ?_, h.socks, fun c a ha => ?_⟩
  · by_cases hj : j = i
    · rw [hj]
      simp only [Function.update_self]
      exact hrep
    · simp only [Function.update_of_ne hj, sentAfter_other hj]
      exact h.replying j
  · rcases h.got c a ha with ⟨done, hgot⟩
    refine ⟨done, ?_, hgot.wrote, hgot.all⟩
    by_cases hi : a.idx = i
    · have hdue := hgot.due
      rw [hi] at hdue
      simp only [hi, Function.update_self, eventsOf_append, procsOf_append, closingsOf_append,
        List.map_append]
      refine hans.due hdue fun hproc => ?_
      -- what is processed now comes behind no closing
      rcases hdelivering.serves c a ha with ⟨st, hserve, _⟩
      rw [eventsOf_append] at hserve
      exact (served_of_exec hserve).not_closed hproc
    · -- nothing is seen of a connection of another worker
      have hmarks := h.delivering.synced.marks i
      have hmoved := hstep.moved (h.delivering.synced.follows i)
        (fun fd x hx => (hmarks.fds fd x hx).ne_none) hl
      have hother : ∀ e ∈ evs, e.conn ≠ some c := by
        intro e he hconn
        rcases hmoved.seen (P := Known s.sys.conns i) (fun b hb => hmarks.rq b (mem_pending hb))
          (fun n x hx => hmarks.fds n x (held_some hx)) e he with ⟨fd, hknown⟩
        rw [hconn] at hknown
        exact hi (hknown.eq ha).2.symm
      simp only [Function.update_of_ne hi, sentAfter_other hi, eventsOf_append_other hother]
      exact hgot.due

/-! ## Steps of the master -/

/-- What the master does to a connection, short of handling its blocks. -/
theorem Got.congr {s t : ReplySt} {c : Conn} {a : Accepted} {done : List (List UInt8)}
    (h : Got answer s c a done)
    (hasked : (t.sys.works a.idx).asked = (s.sys.works a.idx).asked)
    (hsent : t.sent a.idx = s.sent a.idx)
    (hsq : (t.sys.works a.idx).sq = (s.sys.works a.idx).sq)
    (hprocs : procsOf (eventsOf c t.sys.calls) = procsOf (eventsOf c s.sys.calls))
    (hclosings : closingsOf (eventsOf c t.sys.calls) = closingsOf (eventsOf c s.sys.calls))
    (hwrote : wroteTo c t.sys.effects = wroteTo c s.sys.effects)
    (hslot : ∀ idx, t.sys.slots a.fd = .cli idx c → s.sys.slots a.fd = .cli idx c) :
    Got answer t c a done := by
  refine ⟨?_, ?_, fun idx hidx => ?_⟩
  · rw [hasked, hsent, hsq, hprocs, hclosings]
    exact h.due
  · rw [hwrote]
    exact h.wrote
  · rw [hwrote]
    exact h.all idx (hslot idx hidx)

/-- A block that comes to `rq` is not the one that `proc_cli_msg` is at. -/
theorem asked_enqueue {w : Work} (h : w.phase ≠ .idle → w.rq ≠ []) (blk : Block) :
    (w.enqueue blk).asked = w.asked := by
  unfold Work.asked Work.enqueue
  cases hphase : w.phase with
  | inProc fd =>
    have hne := h (by simp [hphase])
    cases hrq : w.rq with
    | nil => exact absurd hrq hne
    | cons b rest => rfl
  | idle | inClosed fd | handled => rfl

/-- A push to `rq` leaves the oldest block where it is. -/
theorem pushRq_asked {s : Sys} (h : Synced s) (idx j : Int32) (blk : Block) :
    ((s.pushRq idx blk true).works j).asked = (s.works j).asked := by
  by_cases hj : j = idx
  · rw [hj, pushRq_self]
    exact asked_enqueue (h.follows idx).busy blk
  · rw [pushRq_other s hj]

/-- So does the push that `do_fd_close` makes. -/
theorem doFdClose_asked {s : Sys} (h : Synced s) (fd j : Int32) :
    ((doFdClose fd true s).works j).asked = (s.works j).asked := by
  rcases doFdClose_works fd true s with ⟨_, heq⟩ | ⟨_, heq⟩
  · rw [heq]
  · rw [heq]
    exact pushRq_asked h _ j _

/-- A worker goes on with its answer while blocks come. -/
theorem Replying.enqueue {w : Work} {r : Option Bool} (h : Replying w r) (blk : Block) :
    Replying (w.enqueue blk) r := by
  refine ⟨fun fd hfd => ?_, h.sending⟩
  rcases h.called fd hfd with ⟨hclosing, b, rest, x, hrq, hb⟩
  refine ⟨hclosing, b, rest ++ [blk], x, ?_, hb⟩
  rw [Work.enqueue, hrq]
  rfl

/-- The same for a push to any worker. -/
theorem Replying.pushRq {s : Sys} {j : Int32} {r : Option Bool} (h : Replying (s.works j) r)
    (idx : Int32) (blk : Block) : Replying ((s.pushRq idx blk true).works j) r := by
  by_cases hj : j = idx
  · rw [hj] at h ⊢
    rw [pushRq_self]
    exact h.enqueue blk
  · rw [pushRq_other s hj]
    exact h

/-- And for the one of `do_fd_close`. -/
theorem Replying.doFdClose {s : Sys} {j : Int32} {r : Option Bool} (h : Replying (s.works j) r)
    (fd : Int32) : Replying ((doFdClose fd true s).works j) r := by
  rcases doFdClose_works fd true s with ⟨_, heq⟩ | ⟨_, heq⟩
  · rw [heq]
    exact h
  · rw [heq]
    exact h.pushRq _ _

/-- A message is framed and pushed. -/
theorem Got.framed {s : ReplySt} (hs : Synced s.sys) {c : Conn} {a : Accepted}
    {done : List (List UInt8)} (h : Got answer s c a done) (conn : Conn) (data : List UInt8)
    (idx : Int32) (blk : Block) :
    Got answer { s with sys := (s.sys.framed conn data).pushRq idx blk true } c a done := by
  have hsynced : Synced (s.sys.framed conn data) := hs.congr _ _
  have hframe : procsOf (eventsOf c [Ev.framed conn data]) = [] ∧
      closingsOf (eventsOf c [Ev.framed conn data]) = 0 := by
    by_cases hc : (Ev.framed conn data).conn = some c
    · rw [eventsOf_self _ hc]
      exact ⟨rfl, rfl⟩
    · rw [eventsOf_other (by simpa using hc)]
      exact ⟨rfl, rfl⟩
  refine h.congr (pushRq_asked hsynced idx a.idx blk) rfl
    (pushRq_sq (s.sys.framed conn data) idx a.idx blk true) ?_ ?_ ?_ ?_
  · rw [pushRq_calls, Sys.framed, eventsOf_append, procsOf_append, hframe.1, List.append_nil]
  · rw [pushRq_calls, Sys.framed, eventsOf_append, closingsOf_append, hframe.2, Nat.add_zero]
  · rw [pushRq_effects, Sys.framed]
  · intro n hn
    rw [pushRq_slots] at hn
    exact hn

/-- Some connection is closed. -/
theorem Got.doFdClose {s : ReplySt} (hs : Synced s.sys) {c : Conn} {a : Accepted}
    {done : List (List UInt8)} (h : Got answer s c a done) (fd : Int32) :
    Got answer { s with sys := doFdClose fd true s.sys } c a done := by
  refine h.congr (doFdClose_asked hs fd a.idx) rfl (doFdClose_sq _ _ _ _) ?_ ?_ ?_ ?_
  · rw [doFdClose_calls]
  · rw [doFdClose_calls]
  · rw [doFdClose_effects]
  · intro n hn
    rw [doFdClose_slots] at hn
    exact free_slots hn

/-- Another connection is accepted. -/
theorem Got.accept {s : ReplySt} (hs : Synced s.sys) {c : Conn} {a : Accepted}
    {done : List (List UInt8)} (h : Got answer s c a done) (hc : c < s.sys.conns.length)
    (b : Accepted) (blk : Block) :
    Got answer { s with sys := (s.sys.register b).pushRq b.idx blk true } c a done := by
  have hfollows : ∀ j, (s.sys.works j).phase ≠ .idle → (s.sys.works j).rq ≠ [] :=
    fun j => (hs.follows j).busy
  refine h.congr ?_ rfl (pushRq_sq (s.sys.register b) b.idx a.idx blk true) ?_ ?_ ?_ ?_
  · by_cases hj : a.idx = b.idx
    · rw [hj]
      simp only [pushRq_self, register_works]
      exact asked_enqueue (hfollows b.idx) blk
    · simp only [pushRq_other _ hj, register_works]
  · rw [pushRq_calls]
    rfl
  · rw [pushRq_calls]
    rfl
  · rw [pushRq_effects]
    rfl
  · intro n hn
    simp only [pushRq_slots, register_slots] at hn
    by_cases hfd : a.fd = b.fd
    · rw [hfd, Function.update_self] at hn
      cases hn
      exact absurd hc (Nat.lt_irrefl _)
    · rw [Function.update_of_ne hfd] at hn
      exact hn

/-- The bytes written in two parts of a run. -/
theorem wroteTo_append (c : Conn) (es es' : List Effect) :
    wroteTo c (es ++ es') = wroteTo c es ++ wroteTo c es' :=
  List.flatMap_append

/-- **What a block of `sq` writes to a connection**, when it takes no effect on another:
the bytes that are taken, if it is an answer to the connection in its slot, else none. -/
theorem wroteTo_effectsOf {s : Sys} {blk : Block} {taken : Nat} {c k : Conn}
    (hk : blk.conn = some k) (hown : ∀ e ∈ effectsOf blk taken (s.slots blk.fd), e.Own) :
    wroteTo c (effectsOf blk taken (s.slots blk.fd)) =
      if blk.type ≠ .blkClose ∧ k = c ∧ (s.slots blk.fd).conn = some c then blk.data.take taken
      else [] := by
  unfold effectsOf at hown ⊢
  cases hslot : s.slots blk.fd with
  | null | fresh | listen idx => simp [Slot.conn, wroteTo]
  | cli idx sock =>
    rw [hslot] at hown
    by_cases hclose : blk.type = .blkClose
    · simp [hclose, wroteTo]
    by_cases hnil : blk.data.take taken = []
    · simp [hclose, hnil, wroteTo]
    simp only [if_neg hclose, if_neg hnil, List.mem_singleton, forall_eq] at hown ⊢
    have hsock : sock = k := hown k hk
    by_cases hc : k = c
    · simp [hclose, hsock, hc, Slot.conn, wroteTo]
    · simp [hclose, hsock, hc, wroteTo]

/-- A block that leaves its connection dead closes it. -/
theorem doBlkSend_dead (blk : Block) (taken : Nat) (noted : Bool) (s : Sys) :
    doBlkSend blk taken false noted s = doFdClose blk.fd noted
      { s with effects := s.effects ++ effectsOf blk taken (s.slots blk.fd) } := by
  unfold doBlkSend doFdSend effectsOf
  by_cases hclose : blk.type = .blkClose
  · rw [if_pos hclose]
    cases hslot : s.slots blk.fd with
    | cli idx conn => simp only [if_pos hclose]
    | null | fresh | listen idx => simp
  · rw [if_neg hclose]
    cases hslot : s.slots blk.fd with
    | cli idx conn =>
      by_cases hnil : blk.data.take taken = []
      · simp [hnil, hclose]
      · simp [hnil, hclose]
    | null | fresh | listen idx => simp

/-- What handling a block of `sq` leaves of the workers and of the slots. -/
structure Handled (s t : Sys) (fd : Int32) (alive : Bool) : Prop where
  asked : ∀ j, (t.works j).asked = (s.works j).asked
  sq : ∀ j, (t.works j).sq = (s.works j).sq
  calls : t.calls = s.calls
  slots : ∀ n idx c, t.slots n = .cli idx c → s.slots n = .cli idx c
  dead : alive = false → ∀ idx c, t.slots fd ≠ .cli idx c

/-- A block of `sq` is handled. -/
theorem handled_doBlkSend {s : Sys} (h : Synced s) (blk : Block) (taken : Nat) (alive : Bool) :
    Handled s (doBlkSend blk taken alive true s) blk.fd alive := by
  have hsynced : Synced { s with
      effects := s.effects ++ effectsOf blk taken (s.slots blk.fd) } := h.congr _ _
  have hclosed : doBlkSend blk taken alive true s = doFdClose blk.fd true
      { s with effects := s.effects ++ effectsOf blk taken (s.slots blk.fd) } →
      Handled s (doBlkSend blk taken alive true s) blk.fd alive := by
    -- `do_fd_close` empties the slot and touches no other one
    intro heq
    rw [heq]
    refine ⟨doFdClose_asked hsynced blk.fd, fun j => doFdClose_sq _ j _ _, doFdClose_calls _ _ _,
      fun n idx c hn => ?_, fun _ idx c hn => ?_⟩
    · rw [doFdClose_slots] at hn
      exact free_slots hn
    · rw [doFdClose_slots, Function.update_self] at hn
      cases hn
  cases alive with
  | false => exact hclosed (doBlkSend_dead blk taken true s)
  | true =>
    rcases doBlkSend_cases blk taken true true s with ⟨_, heq⟩ | heq
    · rw [heq]
      exact ⟨fun _ => rfl, fun _ => rfl, rfl, fun _ _ _ hn => hn, fun hno => (nomatch hno)⟩
    · exact hclosed heq

/-- **The master handles a block of `sq`**: an answer goes to its connection, as far as
that is open. -/
theorem Got.mqSend {s : ReplySt} (h : Answering answer s) {c : Conn} {a : Accepted}
    {done : List (List UInt8)} (ha : s.sys.conns[c]? = some a) (hgot : Got answer s c a done)
    {i : Int32} {blk : Block} {rest : List Block} (hsq : (s.sys.works i).sq = blk :: rest)
    {taken : Nat} {alive : Bool} (hown : ∀ e ∈ effectsOf blk taken (s.sys.slots blk.fd), e.Own)
    (hwhole : alive = true → blk.data.length ≤ taken) :
    ∃ done', Got answer { s with sys := (doBlkSend blk taken alive true s.sys).popSq i } c a
      done' := by
  have hhandled := handled_doBlkSend h.delivering.synced blk taken alive
  have heffects := doBlkSend_effects blk taken alive true s.sys
  -- from here only what `Handled` says of the new state is used
  generalize doBlkSend blk taken alive true s.sys = t at hhandled heffects ⊢
  have hmem : blk ∈ (s.sys.works i).sq := by
    rw [hsq]
    exact List.mem_cons_self
  rcases (h.delivering.synced.marks i).sq blk hmem with ⟨k, b, hk, hb, hfd, hidx⟩
  have hasked : ((t.popSq i).works a.idx).asked = (s.sys.works a.idx).asked := by
    rw [← hhandled.asked a.idx]
    by_cases hi : a.idx = i
    · rw [hi, popSq_self]
      rfl
    · rw [popSq_other t hi]
  have hwrote : wroteTo c (t.popSq i).effects = wroteTo c s.sys.effects ++
      wroteTo c (effectsOf blk taken (s.sys.slots blk.fd)) := by
    rw [← wroteTo_append, ← heffects]
    rfl
  rw [wroteTo_effectsOf hk hown] at hwrote
  have hcalls : (t.popSq i).calls = s.sys.calls := hhandled.calls
  by_cases hc : blk.type ≠ .blkClose ∧ k = c
  · rcases hc with ⟨htype, rfl⟩
    -- an answer to this connection: it leaves `sq` and is done
    cases hb.symm.trans ha
    have hout : repliesOf k (s.sys.works a.idx).sq
        = [blk.data] ++ repliesOf k ((t.popSq i).works a.idx).sq := by
      rw [← hidx] at hsq ⊢
      rw [popSq_self, hhandled.sq a.idx, hsq, repliesOf_own htype hk]
      rfl
    refine ⟨done ++ [blk.data], ?_, ?_, fun idx hslot => ?_⟩
    · simp only [hasked, hcalls, List.append_assoc]
      rw [← hout]
      exact hgot.due
    · simp only [hwrote, List.flatten_append, List.flatten_singleton]
      by_cases hopen : (s.sys.slots blk.fd).conn = some k
      · -- the connection is open, and has got all there was before
        rw [if_pos ⟨htype, trivial, hopen⟩]
        rw [← hfd] at hopen
        cases hslot : s.sys.slots a.fd with
        | null | fresh | listen idx =>
          rw [hslot] at hopen
          cases hopen
        | cli idx conn =>
          rw [hslot] at hopen
          cases hopen
          rw [hgot.all idx hslot]
          exact (List.prefix_append_right_inj _).mpr (List.take_prefix _ _)
      · rw [if_neg fun hall => hopen hall.2.2, List.append_nil]
        exact hgot.wrote.trans (List.prefix_append _ _)
    · have hbefore := hhandled.slots a.fd idx k hslot
      -- if the slot is still the client's, the block went out whole
      have hlive : alive = true := by
        cases alive with
        | true => rfl
        | false => exact absurd (hfd ▸ hslot) (hhandled.dead rfl idx k)
      have hopen : (s.sys.slots blk.fd).conn = some k := by rw [← hfd, hbefore, Slot.conn]
      simp only [hwrote, List.flatten_append, List.flatten_singleton]
      rw [if_pos ⟨htype, trivial, hopen⟩, hgot.all idx hbefore,
        List.take_of_length_le (hwhole hlive)]
  · -- not about this connection
    rw [if_neg fun hall => hc ⟨hall.1, hall.2.1⟩, List.append_nil] at hwrote
    have hout : repliesOf c ((t.popSq i).works a.idx).sq = repliesOf c (s.sys.works a.idx).sq := by
      by_cases hi : a.idx = i
      · rw [hi, popSq_self, hhandled.sq i, hsq, repliesOf_other, List.tail_cons]
        intro htype hconn
        rw [hk] at hconn
        exact hc ⟨htype, Option.some.inj hconn⟩
      · rw [popSq_other t hi, hhandled.sq a.idx]
    refine ⟨done, ?_, ?_, fun idx hslot => ?_⟩
    · simp only [hasked, hcalls, hout]
      exact hgot.due
    · simp only [hwrote]
      exact hgot.wrote
    · simp only [hwrote]
      exact hgot.all idx (hhandled.slots a.fd idx c hslot)

/-- A connection that is accepted now has got nothing, and nothing is on its way. -/
theorem got_new {s : ReplySt} (h : Answering answer s) (a : Accepted) (blk : Block) :
    Got answer { s with sys := (s.sys.register a).pushRq a.idx blk true } s.sys.conns.length a
      [] := by
  -- its index is above those of all connections anything knows of
  have hnew : ∀ i fd, ¬ Known s.sys.conns i fd (some s.sys.conns.length) :=
    fun i fd hknown => Nat.lt_irrefl _ hknown.lt
  have hmarks := h.delivering.synced.marks a.idx
  have hevents : eventsOf s.sys.conns.length s.sys.calls = [] := by
    refine eventsOf_other fun e he hconn => ?_
    rcases h.delivering.seen e he with ⟨i, fd, hknown⟩
    rw [hconn] at hknown
    exact hnew i fd hknown
  have hwrote : wroteTo s.sys.conns.length s.sys.effects = [] := by
    unfold wroteTo
    rw [List.flatMap_eq_nil_iff]
    intro e he
    have hlt := h.socks e he
    cases e with
    | wrote o sock data => exact if_neg (Nat.ne_of_lt hlt)
    | closed o sock => rfl
  have hsq : repliesOf s.sys.conns.length (s.sys.works a.idx).sq = [] := by
    unfold repliesOf
    rw [List.filterMap_eq_nil_iff]
    intro b hb
    refine if_neg fun hboth => ?_
    have hknown := hmarks.sq b hb
    rw [hboth.2] at hknown
    exact hnew _ _ hknown
  refine ⟨⟨fun b hb hconn => ?_, fun _ => Or.inl ?_⟩, ?_, fun idx _ => ?_⟩
  · have hasked : ((s.sys.register a).pushRq a.idx blk true).works a.idx
        = (s.sys.works a.idx).enqueue blk := by rw [pushRq_self, register_works]
    simp only [hasked, asked_enqueue (h.delivering.synced.follows a.idx).busy] at hb
    unfold Work.asked at hb
    cases hphase : (s.sys.works a.idx).phase with
    | inProc fd =>
      rw [hphase] at hb
      have hknown := hmarks.rq b (List.mem_of_mem_head? hb)
      rw [hconn] at hknown
      exact absurd hknown (hnew _ _)
    | idle | inClosed fd | handled =>
      rw [hphase] at hb
      cases hb
  · have hcalls : ((s.sys.register a).pushRq a.idx blk true).calls = s.sys.calls := by
      rw [pushRq_calls]
      rfl
    have hwork : (((s.sys.register a).pushRq a.idx blk true).works a.idx).sq
        = (s.sys.works a.idx).sq := pushRq_sq _ _ _ _ _
    simp only [hcalls, hwork, hsq, hevents]
    rfl
  · simp only [pushRq_effects]
    exact hwrote ▸ List.prefix_refl _
  · simp only [pushRq_effects]
    exact hwrote

/-- **The master's steps keep the invariant.** -/
theorem Answering.master {s : ReplySt} {l : MasterLbl} {t : Sys} (h : Answering answer s)
    (hl : Smooth (.master l) s) (hstep : MasterStep s.sys l t) :
    Answering answer { s with sys := t } := by
  have hsynced := h.delivering.synced
  have hdelivering := h.delivering.master hl.calm hstep
  have haged : Aged t := by
    rcases h.aged.master hstep with ⟨_, hgood⟩ | ⟨hbad, _⟩
    · exact hgood
    · exact absurd hl.notReused hbad
  cases hstep with
  | @accept lfd a noted =>
    refine ⟨hdelivering, haged, fun j => (h.replying j).pushRq _ _, fun e he => ?_,
      fun c a' ha' => ?_⟩
    · simp only [pushRq_effects, pushRq_conns, register_conns, List.length_append] at he ⊢
      exact Nat.lt_of_lt_of_le (h.socks e he) (Nat.le_add_right _ _)
    · simp only [pushRq_conns, register_conns] at ha'
      rcases getElem?_concat ha' with hold | ⟨rfl, rfl⟩
      · rcases h.got c a' hold with ⟨done, hgot⟩
        have hc := (List.getElem?_eq_some_iff.mp hold).1
        exact ⟨done, hgot.accept hsynced hc a _⟩
      · exact ⟨[], got_new h a' _⟩
  | acceptLost => cases hl.calm
  | @frame fd idx conn data noted =>
    refine ⟨hdelivering, haged, fun j => ?_, fun e he => ?_, fun c a ha => ?_⟩
    · exact Replying.pushRq (s := s.sys.framed conn data) (h.replying j) _ _
    · simp only [pushRq_effects, pushRq_conns] at he ⊢
      exact h.socks e he
    · simp only [pushRq_conns] at ha
      rcases h.got c a ha with ⟨done, hgot⟩
      exact ⟨done, hgot.framed hsynced conn data idx _⟩
  | frameLost => cases hl.calm
  | @hangup fd idx conn noted =>
    rw [show noted = true from hl.calm] at hdelivering haged ⊢
    refine ⟨hdelivering, haged, fun j => (h.replying j).doFdClose fd, fun e he => ?_,
      fun c a ha => ?_⟩
    · simp only [doFdClose_effects, doFdClose_conns] at he ⊢
      exact h.socks e he
    · simp only [doFdClose_conns] at ha
      rcases h.got c a ha with ⟨done, hgot⟩
      exact ⟨done, hgot.doFdClose hsynced fd⟩
  | @mqSend i blk rest taken alive noted hsq =>
    have hnoted : noted = true := hl.calm
    rw [hnoted] at hdelivering haged ⊢
    have heffects := doBlkSend_effects blk taken alive true s.sys
    have hconns : ((doBlkSend blk taken alive true s.sys).popSq i).conns = s.sys.conns := by
      rcases doBlkSend_cases blk taken alive true s.sys with ⟨_, heq⟩ | heq
      · rw [heq]
        rfl
      · rw [heq]
        exact doFdClose_conns _ _ _
    -- an aged descriptor is written to under its own connection only
    have hown : ∀ e ∈ effectsOf blk taken (s.sys.slots blk.fd), e.Own := by
      intro e he
      refine haged.own e ?_
      simp only [Sys.popSq, heffects]
      exact List.mem_append_right _ he
    have hwhole : alive = true → blk.data.length ≤ taken := by
      intro hlive
      exact hl.whole hlive blk (by rw [hsq]; rfl)
    refine ⟨hdelivering, haged, fun j => ?_, fun e he => ?_, fun c a ha => ?_⟩
    · have hrep : Replying ((doBlkSend blk taken alive true s.sys).works j) (s.sent j) := by
        rcases doBlkSend_cases blk taken alive true s.sys with ⟨_, heq⟩ | heq
        · rw [heq]
          exact h.replying j
        · rw [heq]
          exact Replying.doFdClose (s := { s.sys with
            effects := s.sys.effects ++ effectsOf blk taken (s.sys.slots blk.fd) })
            (h.replying j) blk.fd
      by_cases hj : j = i
      · rw [hj] at hrep ⊢
        simp only [popSq_self]
        exact ⟨hrep.called, hrep.sending⟩
      · simp only [popSq_other _ hj]
        exact hrep
    · simp only [hconns]
      simp only [Sys.popSq, heffects] at he
      rcases List.mem_append.mp he with hold | hnew
      · exact h.socks e hold
      · rcases mem_effectsOf hnew with ⟨_, _, idx, hslot⟩
        exact (h.aged.slot _ _ _ hslot).lt
    · simp only [hconns] at ha
      rcases h.got c a ha with ⟨done, hgot⟩
      exact hgot.mqSend h ha hsq hown hwhole

/-- **Every step keeps the invariant.** -/
theorem replyStep_inv (l : Lbl) (s t : ReplySt) (h : Answering answer s) (hl : Smooth l s)
    (hstep : replyStep answer l s = some t) : Answering answer t := by
  simp only [replyStep, Option.ite_none_right_eq_some, Option.map_eq_some_iff] at hstep
  rcases hstep with ⟨hallow, t', ht', rfl⟩
  rcases sysStep_cases ht' with ⟨ml, rfl, hmaster⟩ | ⟨i, wl, w, evs, rfl, hwork, rfl⟩
  · exact h.master hl hmaster
  · exact h.work hallow hwork

/-! ## From end to end -/

/-- The invariant holds at the end of every such run. -/
theorem answering_of_run (listeners : Int32 → Option Int32) {ls : List Lbl} {s : ReplySt}
    (hsmooth : Along (replyStep answer) Smooth ls (replyInit listeners))
    (hrun : exec (replyStep answer) ls (replyInit listeners) = some s) : Answering answer s :=
  exec_invariant _ replyStep_inv (answering_init listeners) hsmooth hrun

/-- What has been written is the beginning of what is to be written. -/
theorem Answering.in_order {s : ReplySt} (h : Answering answer s) {c : Conn} {a : Accepted}
    (ha : s.sys.conns[c]? = some a) : wroteTo c s.sys.effects <+:
      ((framesOf (eventsOf c s.sys.calls)).map answer).flatten := by
  rcases h.got c a ha with ⟨done, hgot⟩
  rcases h.delivering.serves c a ha with ⟨st, hserve, _⟩
  have hprocs : procsOf (eventsOf c s.sys.calls) <+: framesOf (eventsOf c s.sys.calls) :=
    (served_of_exec hserve).in_order
  have hdone : done <+: (framesOf (eventsOf c s.sys.calls)).map answer :=
    ((List.prefix_append done _).trans hgot.due.in_order).trans (hprocs.map answer)
  exact hgot.wrote.trans hdone.flatten

/-- **Answers come in order.** In every run in which no push to `rq` fails, no descriptor is
accepted again under a block of `sq` and no open connection leaves a part of a block, the
bytes written to a connection are a prefix of the answers to the messages framed
from it, one behind the other: none is missing before another, none comes twice, and
none belongs to another connection. Answers may be refused by a full `sq`. -/
theorem replies_in_order (listeners : Int32 → Option Int32) {ls : List Lbl} {s : ReplySt}
    (hsmooth : Along (replyStep answer) Smooth ls (replyInit listeners))
    (hrun : exec (replyStep answer) ls (replyInit listeners) = some s) {c : Conn} {a : Accepted}
    (ha : s.sys.conns[c]? = some a) : wroteTo c s.sys.effects <+:
      ((framesOf (eventsOf c s.sys.calls)).map answer).flatten :=
  (answering_of_run listeners hsmooth hrun).in_order ha

/-- A service that is over does not come back. -/
theorem serve_ended_not_live {x₀ : Sess} {evs : List Ev} {todo : List (List UInt8)} :
    ¬ exec (serve x₀) evs .ended = some (.live todo) := by
  induction evs with
  | nil => exact fun h => (nomatch h)
  | cons e evs ih =>
    intro h
    rcases exec_cons_some.mp h with ⟨m, hm, hrest⟩
    cases e with
    | framed c data =>
      cases hm
      exact ih hrest
    | opened | proc | onClosed => cases hm

/-- While a service is live, what is framed is processed or left to process. -/
theorem serve_live {x₀ : Sess} : ∀ {evs : List Ev} {st : Service} {todo : List (List UInt8)},
    exec (serve x₀) evs st = some (.live todo) →
      procsOf evs ++ todo = st.todo ++ framesOf evs ∧ closingsOf evs = 0 := by
  intro evs
  induction evs with
  | nil =>
    intro st todo h
    cases h
    exact ⟨(List.append_nil todo).symm, rfl⟩
  | cons e evs ih =>
    intro st todo h
    rcases exec_cons_some.mp h with ⟨m, hm, hrest⟩
    have hm' := ih hrest
    cases st with
    | ended =>
      cases e with
      | framed c data =>
        cases hm
        exact absurd hrest serve_ended_not_live
      | opened | proc | onClosed => cases hm
    | waiting todo' =>
      cases e with
      | framed c data =>
        cases hm
        refine ⟨?_, hm'.2⟩
        rw [Service.todo, List.append_assoc] at hm'
        exact hm'.1
      | opened x =>
        simp only [serve, Option.ite_none_right_eq_some] at hm
        cases hm.2
        exact hm'
      | proc | onClosed => cases hm
    | live todo' =>
      cases e with
      | framed c data =>
        cases hm
        refine ⟨?_, hm'.2⟩
        rw [Service.todo, List.append_assoc] at hm'
        exact hm'.1
      | proc o data x =>
        cases todo' with
        | nil => cases hm
        | cons next todo' =>
          simp only [serve, Option.ite_none_right_eq_some] at hm
          rcases hm with ⟨⟨_, rfl⟩, hlive⟩
          cases hlive
          -- the message processed leaves those that wait
          exact ⟨congrArg (data :: ·) hm'.1, hm'.2⟩
      | onClosed x =>
        simp only [serve, Option.ite_none_right_eq_some] at hm
        cases hm.2
        exact absurd hrest serve_ended_not_live
      | opened => cases hm

/-- A registered client whose worker has nothing left to do has its session, and all its
messages are processed. -/
theorem Matched.all_processed {s : Sys} (hm : Matched s) (h : Delivering s) {c : Conn}
    {a : Accepted} (ha : s.conns[c]? = some a) (hrq : (s.works a.idx).rq = [])
    (hsq : (s.works a.idx).sq = []) (hslot : s.slots a.fd = .cli a.idx c) :
    procsOf (eventsOf c s.calls) = framesOf (eventsOf c s.calls) ∧
      closingsOf (eventsOf c s.calls) = 0 := by
  have hf := h.synced.follows a.idx
  have hidle : (s.works a.idx).phase = .idle := by
    by_contra hbusy
    exact hf.busy hbusy hrq
  have hpending : (s.works a.idx).pending = [] := by rw [Work.pending, if_pos hidle, hrq]
  have hconn : connAt a.idx (s.slots a.fd) = some c := by rw [hslot, connAt_self]
  -- its session is there, and is not being closed
  have hheld : ¬ Dropped (s.works a.idx) a.fd := by
    intro hdrop
    have hcaught : CaughtUp a.fd (s.works a.idx).pending := by
      rw [hpending]
      exact fun b hb => (List.not_mem_nil hb).elim
    have hne : connAt a.idx (s.slots a.fd) ≠ none := by
      rw [hconn]
      simp
    rcases hm.notes a.idx a.fd hne hcaught hdrop with ⟨b, hb, _⟩
    rw [hsq] at hb
    cases hb
  rcases Option.ne_none_iff_exists'.mp fun hnone => hheld (Or.inl hnone) with ⟨x, hx⟩
  have hxheld : (s.works a.idx).held a.fd = some x := by
    unfold Work.held
    rw [if_neg, hx]
    rintro (hclosing | hphase)
    · exact hheld (Or.inr hclosing)
    · rw [hidle] at hphase
      cases hphase
  have hxconn : x.conn = some c := by
    rcases hf.tracks a.fd with ⟨cur, htr⟩
    have hlife := htr.life
    rw [hpending] at hlife
    rw [← htr.sess x hx (by simp [hidle]), Option.some.inj hlife, hconn]
  rcases h.serves c a ha with ⟨st, hserve, hstage⟩
  rcases hstage.live_of_held hxheld hxconn with ⟨_, todo, rfl⟩
  rw [hpending] at hstage
  have htodo : todo = [] := hstage.2.2.symm
  rcases serve_live hserve with ⟨hall, hclosings⟩
  rw [htodo, List.append_nil] at hall
  exact ⟨hall, hclosings⟩

/-- A step whose pushes succeed keeps sessions and clients in agreement. -/
theorem replyStep_agreed (l : Lbl) (s t : ReplySt) (h : Agreed s.sys) (hl : l.Pushed)
    (hstep : replyStep answer l s = some t) : Agreed t.sys := by
  simp only [replyStep, Option.ite_none_right_eq_some, Option.map_eq_some_iff] at hstep
  rcases hstep with ⟨_, t', ht', rfl⟩
  exact h.step (Lbl.Pushed.told hl s.sys) ht'

/-- **Every message is answered.** When no push has failed, a client that is open while both
queues of its worker are empty has got the answers to all its messages. -/
theorem Answering.all_answered {s : ReplySt} (h : Answering answer s) (hagreed : Agreed s.sys)
    {c : Conn} {a : Accepted} (ha : s.sys.conns[c]? = some a)
    (hrq : (s.sys.works a.idx).rq = []) (hsq : (s.sys.works a.idx).sq = [])
    (hslot : s.sys.slots a.fd = .cli a.idx c) :
    wroteTo c s.sys.effects = ((framesOf (eventsOf c s.sys.calls)).map answer).flatten := by
  rcases hagreed.matched.all_processed h.delivering ha hrq hsq hslot with ⟨hall, hclosings⟩
  rcases h.got c a ha with ⟨done, hgot⟩
  have hasked : (s.sys.works a.idx).asked = none := by
    unfold Work.asked
    rw [hrq]
    split <;> rfl
  have hdue := hgot.due
  rw [hasked, hsq, hall, hclosings] at hdue
  rcases hdue.free (fun b hb => absurd hb (Option.not_mem_none b)) with heq | ⟨hpos, _⟩
  · rw [← heq, hgot.all a.idx hslot]
    exact congrArg List.flatten (List.append_nil done).symm
  · exact absurd hpos (Nat.lt_irrefl 0)

/-- So does a run. -/
theorem agreed_of_run (listeners : Int32 → Option Int32) {ls : List Lbl} {s : ReplySt}
    (hpushed : ∀ l ∈ ls, l.Pushed)
    (hrun : exec (replyStep answer) ls (replyInit listeners) = some s) : Agreed s.sys :=
  exec_invariant (fun s => Agreed s.sys) replyStep_agreed (agreed_init listeners)
    (along_of_forall hpushed _) hrun

/-- A message that says its own length comes back as it is. -/
theorem echo_wellFormed {max : Int} {m : List UInt8} (h : Net.WellFormed max m) : echo m = m := by
  unfold echo
  rw [show (Net.getMsgLen (ofBytes m) m.length).toInt = m.length from h.2.2, bytes_ofBytes]

/-- **`test_serv` echoes.** In such a run, a client that is open while both queues of its
worker are empty has got back, byte for byte, the messages that were framed from it, if
each of them says its own length and is at most 65536 bytes long. -/
theorem echoed (listeners : Int32 → Option Int32) {ls : List Lbl} {s : ReplySt}
    (hsmooth : Along (replyStep echo) Smooth ls (replyInit listeners))
    (hpushed : ∀ l ∈ ls, l.Pushed)
    (hrun : exec (replyStep echo) ls (replyInit listeners) = some s) {c : Conn} {a : Accepted}
    (ha : s.sys.conns[c]? = some a) (hrq : (s.sys.works a.idx).rq = [])
    (hsq : (s.sys.works a.idx).sq = []) (hslot : s.sys.slots a.fd = .cli a.idx c)
    (hformed : ∀ m ∈ framesOf (eventsOf c s.sys.calls), Net.WellFormed 65536 m) :
    wroteTo c s.sys.effects = (framesOf (eventsOf c s.sys.calls)).flatten := by
  have h := answering_of_run listeners hsmooth hrun
  rw [h.all_answered (agreed_of_run listeners hpushed hrun) ha hrq hsq hslot]
  have hid : (framesOf (eventsOf c s.sys.calls)).map echo = framesOf (eventsOf c s.sys.calls) :=
    (List.map_congr_left fun m hm => echo_wellFormed (hformed m hm)).trans (List.map_id _)
  rw [hid]

/-- Two clients of one worker, each with a message of six bytes; the first has its answer
written and is closed by the master, the second sends another message. -/
def twoClients : List Lbl :=
  let a := [6, 0, 0, 0, 97, 98]
  let b := [5, 0, 0, 0, 99]
  let say (fd : Int32) (m : List UInt8) : List Lbl :=
    [.master (.frame fd m true true), .work 0 (.recv true), .work 0 (.sendToCli fd m true),
      .work 0 (.procRet 0 true), .work 0 .pop, .master (.mqSend 0 m.length true true)]
  [.master (.accept 3 5 [127, 0, 0, 1, 80, 0] true true), .work 0 (.recv true), .work 0 .pop,
    .master (.accept 3 6 [127, 0, 0, 1, 81, 0] true true), .work 0 (.recv true), .work 0 .pop] ++
    say 5 a ++ say 6 a ++ [.master (.hangup 5 true), .work 0 (.recv true), .work 0 .closedRet,
      .work 0 .pop] ++ say 6 b

/-- The first of the two clients. -/
theorem replies_in_order_twoClients :
    ∃ s, exec (replyStep echo) twoClients (replyInit oneListener) = some s ∧
      wroteTo 0 s.sys.effects <+: ((framesOf (eventsOf 0 s.sys.calls)).map echo).flatten := by
  have hsome : (exec (replyStep echo) twoClients (replyInit oneListener)).isSome := by
    decide +kernel
  have hsmooth : Along (replyStep echo) Smooth twoClients (replyInit oneListener) := by
    decide +kernel
  have hconn : ∀ s ∈ exec (replyStep echo) twoClients (replyInit oneListener),
      s.sys.conns[0]? = some ⟨5, 0, [127, 0, 0, 1, 80, 0]⟩ := by decide +kernel
  rcases Option.isSome_iff_exists.mp hsome with ⟨s, hrun⟩
  exact ⟨s, hrun, replies_in_order oneListener hsmooth hrun (hconn s hrun)⟩

/-- The second one has got back both of its messages. -/
theorem echoed_twoClients :
    ∃ s, exec (replyStep echo) twoClients (replyInit oneListener) = some s ∧
      wroteTo 1 s.sys.effects = [6, 0, 0, 0, 97, 98, 5, 0, 0, 0, 99] := by
  have hsome : (exec (replyStep echo) twoClients (replyInit oneListener)).isSome := by
    decide +kernel
  have hsmooth : Along (replyStep echo) Smooth twoClients (replyInit oneListener) := by
    decide +kernel
  have hpushed : ∀ l ∈ twoClients, l.Pushed := by
    simp [twoClients, Lbl.Pushed, MasterLbl.Pushed, WorkLbl.Pushed]
  have hfacts : ∀ s ∈ exec (replyStep echo) twoClients (replyInit oneListener),
      s.sys.conns[1]? = some ⟨6, 0, [127, 0, 0, 1, 81, 0]⟩ ∧ (s.sys.works 0).rq = [] ∧
        (s.sys.works 0).sq = [] ∧ s.sys.slots 6 = .cli 0 1 ∧
        framesOf (eventsOf 1 s.sys.calls) = [[6, 0, 0, 0, 97, 98], [5, 0, 0, 0, 99]] := by
    decide +kernel
  rcases Option.isSome_iff_exists.mp hsome with ⟨s, hrun⟩
  rcases hfacts s hrun with ⟨hconn, hrq, hsq, hslot, hframes⟩
  have hformed : ∀ m ∈ framesOf (eventsOf 1 s.sys.calls), Net.WellFormed 65536 m := by
    rw [hframes]
    simp only [List.mem_cons, List.not_mem_nil, or_false, forall_eq_or_imp, forall_eq]
    constructor
    · exact ⟨by decide, by decide, by decide⟩
    · exact ⟨by decide, by decide, by decide⟩
  refine ⟨s, hrun, ?_⟩
  rw [echoed oneListener hsmooth hpushed hrun hconn hrq hsq hslot hformed, hframes]
  rfl

end SServer.Proto
