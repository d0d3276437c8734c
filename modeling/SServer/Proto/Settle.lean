import Mathlib.Data.Set.Finite.Basic
import SServer.Lib.Rank
import SServer.Proto.Reply

/-!
# SServer.Proto.Settle — the system comes to rest

When nothing arrives any more, no client, no message and no hangup, the master and the
workers have only their queues to work off. A worker's answer is more work for the master, and a
block that closes a client is more work for a worker; but each of these costs less than what it
comes from, so the work comes to an end in whatever order it is done. And the system can
only stand still when no queue holds a block and every message has its answer.

That a process with a block to handle does not sleep is shown in `SServer.Queue.Wake`.

* `WorkStep.due_lt`, `mqSend_due`: each step of a worker and of the master takes the rank of the
  system down.
* `replyStep_due`: so every inner step leaves less to do.
* `Answering.work_moves`: a worker with something to do can do it.
* `settles`: the result: a bound on the number of steps, and what a system looks like that
  cannot go on.

This is about steps, in whatever order: no fairness is assumed, and no time is measured. The
timers of the loaded object send nothing.
-/

namespace SServer.Proto

open SServer.Lib SServer.Queue SServer.Worker

variable {answer : List UInt8 → List UInt8}

/-! ## What is to be shown -/

/-- A step that lets nothing new into the system. -/
def Lbl.Inner : Lbl → Prop
  | .work _ _ | .master (.mqSend _ _ _ _) => True
  | .master (.accept _ _ _ _ _) | .master (.frame _ _ _ _) | .master (.hangup _ _) => False

/-- No queue holds a block, and every open client has the answers to all its messages. -/
structure AtRest (answer : List UInt8 → List UInt8) (s : ReplySt) : Prop where
  queues : ∀ i, (s.sys.works i).rq = [] ∧ (s.sys.works i).sq = []
  answered : ∀ c a, s.sys.conns[c]? = some a → s.sys.slots a.fd = .cli a.idx c →
    wroteTo c s.sys.effects = ((framesOf (eventsOf c s.sys.calls)).map answer).flatten

/-- **The system settles**: inner steps, in whatever order, are bounded in number, and where none
is left to take the system is at rest. No push fails in them. -/
def Settles (answer : List UInt8 → List UInt8) (s : ReplySt) : Prop :=
  ∃ n, ∀ ls t, (∀ l ∈ ls, l.Inner ∧ l.Pushed) → Along (replyStep answer) Smooth ls s →
    exec (replyStep answer) ls s = some t →
      ls.length ≤ n ∧ ((∀ l, l.Inner → replyStep answer l t = none) → AtRest answer t)

/-! ## The work that is left -/

/-- For a block of `rq`: a message is looked at, answered, and the answer handled; or its client
is closed. -/
def blkDue (blk : Block) : Nat := if blk.type = .blkClose then 3 else 13

/-- For the blocks of `rq`. -/
def rqDue : List Block → Nat
  | [] => 0
  | blk :: rest => blkDue blk + rqDue rest

/-- For the block that is being handled. -/
def Phase.due (sent : Option Bool) : Phase → Nat
  | .idle => 0
  | .inProc _ => if sent = none then 12 else 7
  | .inClosed _ => 2
  | .handled => 1

/-- For a worker; a block of `sq` may bring the `BLK_CLOSE` of its client. -/
def Work.due (w : Work) (sent : Option Bool) : Nat :=
  w.phase.due sent + rqDue w.pending + w.closing.length + 4 * w.sq.length

/-- What a phase has still to do is bounded. -/
theorem Phase.due_le (sent : Option Bool) (phase : Phase) : phase.due sent ≤ 12 := by
  cases phase with
  | inProc fd =>
    by_cases hsent : sent = none
    · simp [Phase.due, hsent]
    · simp [Phase.due, hsent]
  | idle | inClosed fd | handled => simp [Phase.due]

/-- One more block of `rq`. -/
theorem rqDue_concat (rq : List Block) (blk : Block) :
    rqDue (rq ++ [blk]) = rqDue rq + blkDue blk := by
  induction rq with
  | nil => exact (Nat.zero_add _).symm
  | cons b rq ih =>
    simp only [List.cons_append, rqDue, ih]
    omega

/-- A block for `sq` costs four at most. -/
theorem pushSq_due (w : Work) (blk : Block) (pushed : Bool) (sent : Option Bool) :
    (w.pushSq blk pushed).due sent ≤ w.due sent + 4 := by
  cases pushed with
  | false => exact Nat.le_add_right _ _
  | true =>
    simp only [Work.pushSq, Work.due, Work.pending, if_true, List.length_append,
      List.length_singleton]
    omega

/-- A block that comes to `rq` adds its own work, at most. -/
theorem enqueue_due (w : Work) (blk : Block) (sent : Option Bool) :
    (w.enqueue blk).due sent ≤ w.due sent + blkDue blk := by
  have hpending : rqDue (w.enqueue blk).pending ≤ rqDue w.pending + blkDue blk := by
    unfold Work.pending Work.enqueue
    by_cases hidle : w.phase = .idle
    · simp only [if_pos hidle, rqDue_concat]
      exact Nat.le_refl _
    · simp only [if_neg hidle]
      cases w.rq with
      | nil => exact Nat.zero_le _
      | cons b rest =>
        rw [List.cons_append, List.tail_cons, List.tail_cons, rqDue_concat]
  have hsame : (w.enqueue blk).phase = w.phase ∧ (w.enqueue blk).closing = w.closing ∧
      (w.enqueue blk).sq = w.sq := ⟨rfl, rfl, rfl⟩
  unfold Work.due
  rw [hsame.1, hsame.2.1, hsame.2.2]
  omega

/-! ## Every step leaves less -/

/-- It makes `sq` longer by one at most. -/
theorem pushSq_length (w : Work) (blk : Block) (pushed : Bool) :
    (w.pushSq blk pushed).sq.length ≤ w.sq.length + 1 := by
  cases pushed with
  | false => exact Nat.le_succ _
  | true =>
    rw [Work.pushSq, if_pos rfl, List.length_append]
    exact Nat.le_refl _

/-- `mq_get` and the `switch` leave the oldest block where it is, and less to do for it. -/
theorem handleBlock_leaves (blk : Block) (pushed : Bool) (w : Work) (sent : Option Bool) :
    (handleBlock blk pushed w).1.rq = w.rq ∧ (handleBlock blk pushed w).1.closing = w.closing ∧
      (handleBlock blk pushed w).1.phase ≠ .idle ∧
      (handleBlock blk pushed w).1.phase.due sent + 4 * (handleBlock blk pushed w).1.sq.length <
        blkDue blk + 4 * w.sq.length := by
  unfold handleBlock blkDue
  cases htype : blk.type with
  | blkData =>
    dsimp only
    cases getFd w.fds blk.fd with
    | none => exact ⟨rfl, rfl, by simp, by simp [Phase.due]⟩
    | some x =>
      -- `proc_cli_msg` is called
      have hle := Phase.due_le sent (.inProc blk.fd)
      refine ⟨rfl, rfl, by simp, ?_⟩
      simp only [reduceCtorEq, if_false]
      omega
  | blkOpen =>
    dsimp only
    by_cases hreject : (getFd w.fds blk.fd).isSome = true ∨ blk.data.length ≠ addrLen
    · -- a client that is not taken costs a block to the master
      rcases pushSq_frame w (closeBlock blk.id blk.fd blk.conn) pushed with
        ⟨hrq, _, _, _, hclosing⟩
      have hlen := pushSq_length w (closeBlock blk.id blk.fd blk.conn) pushed
      rw [if_pos hreject]
      refine ⟨hrq, hclosing, by simp, ?_⟩
      simp only [Phase.due, reduceCtorEq, if_false]
      omega
    · rw [if_neg hreject]
      exact ⟨rfl, rfl, by simp, by simp [Phase.due]⟩
  | blkClose =>
    dsimp only
    cases getFd w.fds blk.fd with
    | none => exact ⟨rfl, rfl, by simp, by simp [Phase.due]⟩
    | some x => exact ⟨rfl, rfl, by simp, by simp [Phase.due]⟩
  | blkAlign => exact ⟨rfl, rfl, by simp, by simp [Phase.due]⟩

/-- To handle a block costs less than the block. -/
theorem handleBlock_due {w : Work} {blk : Block} {rest : List Block} (hidle : w.phase = .idle)
    (hrq : w.rq = blk :: rest) (pushed : Bool) (sent sent' : Option Bool) :
    (handleBlock blk pushed w).1.due sent' < w.due sent := by
  rcases handleBlock_leaves blk pushed w sent' with ⟨hrq', hclosing, hbusy, hlt⟩
  have hbefore : w.due sent = blkDue blk + rqDue rest + w.closing.length + 4 * w.sq.length := by
    rw [Work.due, Work.pending, if_pos hidle, hidle, hrq]
    simp [Phase.due, rqDue]
  rw [hbefore, Work.due, Work.pending, if_neg hbusy, hrq', hrq, hclosing, List.tail_cons]
  omega

/-- `close_cli` costs less than the return of `proc_cli_msg`. -/
theorem closeCli_due {i fd : Int32} {pushed : Bool} {w w' : Work} {evs : List Ev}
    (h : closeCli i fd pushed w = some (w', evs)) (sent : Option Bool) :
    w'.due sent ≤ w.due sent + 5 := by
  rcases closeCli_cases h with ⟨_, hw, _⟩ | ⟨x, _, _, hw⟩
  · rw [hw]
    exact Nat.le_add_right _ _
  · have hpush := pushSq_due w (closeBlock i fd x.conn) pushed sent
    rcases pushSq_frame w (closeBlock i fd x.conn) pushed with ⟨_, _, _, _, hclosing⟩
    rw [hw]
    unfold Work.due Work.pending at hpush ⊢
    simp only [hclosing, List.length_cons] at hpush ⊢
    omega

/-- **A worker that runs the service**. -/
theorem WorkStep.due_lt {s : ReplySt} {i : Int32} {l : WorkLbl} {w : Work} {evs : List Ev}
    (hsane : (s.sys.works i).garbled = false) (hallow : ReplyAllows answer (.work i l) s)
    (hstep : WorkStep i (s.sys.works i) l w evs) :
    w.due (sentAfter s.sent (.work i l) i) < (s.sys.works i).due (s.sent i) := by
  cases hstep with
  | recv pushed hidle _ _ hrq => exact handleBlock_due hidle hrq pushed _ _
  | recvGarbled _ _ _ _ hgarbled =>
    rw [hsane] at hgarbled
    cases hgarbled
  | @procRet fd pushed hphase =>
    have hsent : s.sent i ≠ none := by
      intro hnone
      simp only [ReplyAllows, hnone, Option.map_none] at hallow
      cases hallow
    simp [Work.due, Work.pending, hphase, Phase.due, hsent]
  | @procErr fd r w' evs pushed hr hphase _ hclose =>
    have hsent : s.sent i ≠ none := by
      intro hnone
      simp only [ReplyAllows, hnone, Option.map_none] at hallow
      cases hallow
    -- the rank of a call that is about to return pays for `close_cli`
    have hle := closeCli_due hclose (sentAfter s.sent (.work i (.procRet r pushed)) i)
    simp [Work.due, Work.pending, hphase, Phase.due, hsent] at hle ⊢
    omega
  | cliRet hclosing => simp [sentAfter, Work.due, Work.pending, hclosing]
  | blkRet _ hphase => simp [Work.due, Work.pending, hphase, Phase.due]
  | pop hphase => simp [Work.due, Work.pending, hphase, Phase.due, hsane]
  | @sendToCli fd x msg pushed hx hid =>
    rcases hallow with ⟨hnone, hphase, _⟩
    -- a call that has not answered yet counts for more than its answer
    have hpush := pushSq_due (s.sys.works i) ⟨.blkData, i, fd, msg, x.conn⟩ pushed (some pushed)
    simp only [sentAfter, Function.update_self]
    simp [Work.due, hphase, Phase.due, hnone] at hpush ⊢
    omega
  | closeCli => exact hallow.elim

/-! ## The rank of the system -/

/-- There are finitely many workers, one for each index at most. -/
theorem int32_finite : Finite Int32 :=
  Finite.of_injective (fun i : Int32 => i.toBitVec.toFin) fun _ _ h =>
    Int32.toBitVec_inj.mp (BitVec.toFin_inj.mp h)

/-- All workers that there can be. -/
noncomputable def everyone : Finset Int32 := (@Set.finite_univ _ int32_finite).toFinset

/-- And all of them are counted. -/
theorem mem_everyone (i : Int32) : i ∈ everyone := by simp [everyone]

/-- The work that is left to all of them. -/
noncomputable def allDue (works : Int32 → Work) (sent : Int32 → Option Bool) : Nat :=
  ∑ i ∈ everyone, (works i).due (sent i)

/-- One worker changes, and the rank of the system by as much. -/
theorem allDue_change (works works' : Int32 → Work) (sent sent' : Int32 → Option Bool) (i : Int32)
    (hworks : ∀ j, j ≠ i → works' j = works j) (hsent : ∀ j, j ≠ i → sent' j = sent j) :
    allDue works' sent' + (works i).due (sent i) =
      allDue works sent + (works' i).due (sent' i) := by
  refine sum_change (f := fun j => (works j).due (sent j)) (mem_everyone i) fun j hj => ?_
  rw [hworks j hj, hsent j hj]

/-- `do_fd_close` brings a `BLK_CLOSE` to one worker, at most. -/
theorem doFdClose_due (fd : Int32) (s : Sys) (sent : Int32 → Option Bool) :
    allDue (doFdClose fd true s).works sent ≤ allDue s.works sent + 3 := by
  rcases doFdClose_works fd true s with ⟨_, heq⟩ | ⟨_, heq⟩
  · rw [heq]
    exact Nat.le_add_right _ _
  · rw [heq]
    generalize (s.slots fd).idx = idx
    have hle := enqueue_due (s.works idx) (closeBlock idx fd (s.slots fd).conn) (sent idx)
    have hdue : blkDue (closeBlock idx fd (s.slots fd).conn) = 3 := rfl
    have hsum := allDue_change s.works _ sent sent idx
      (fun j hj => pushRq_other s hj (closeBlock idx fd (s.slots fd).conn) true) fun _ _ => rfl
    rw [pushRq_self] at hsum
    show allDue (s.pushRq idx (closeBlock idx fd (s.slots fd).conn) true).works sent ≤ _
    omega

/-- **The master handles a block of `sq`**. -/
theorem mqSend_due {s : Sys} {i : Int32} {blk : Block} {rest : List Block}
    (hsq : (s.works i).sq = blk :: rest) (taken : Nat) (alive : Bool)
    (sent : Int32 → Option Bool) :
    allDue ((doBlkSend blk taken alive true s).popSq i).works sent < allDue s.works sent := by
  have hbefore : allDue (doBlkSend blk taken alive true s).works sent ≤ allDue s.works sent + 3 ∧
      ((doBlkSend blk taken alive true s).works i).sq = blk :: rest := by
    rcases doBlkSend_cases blk taken alive true s with ⟨_, heq⟩ | heq
    · rw [heq]
      exact ⟨Nat.le_add_right _ _, hsq⟩
    · rw [heq]
      exact ⟨doFdClose_due blk.fd _ sent, (doFdClose_sq _ _ _ _).trans hsq⟩
  rcases hbefore with ⟨hle, hsq'⟩
  generalize doBlkSend blk taken alive true s = m at hle hsq'
  have hpop : ((m.popSq i).works i).due (sent i) + 4 = (m.works i).due (sent i) := by
    rw [popSq_self]
    simp only [Work.due, Work.pending, hsq', List.tail_cons, List.length_cons]
    omega
  have hsum := allDue_change m.works (m.popSq i).works sent sent i
    (fun j hj => popSq_other m hj) fun _ _ => rfl
  omega

/-- **Every inner step leaves less to do.** -/
theorem replyStep_due {l : Lbl} {s t : ReplySt} (h : Answering answer s) (hinner : l.Inner)
    (hcalm : Calm l s.sys) (hstep : replyStep answer l s = some t) :
    allDue t.sys.works t.sent < allDue s.sys.works s.sent := by
  simp only [replyStep, Option.ite_none_right_eq_some, Option.map_eq_some_iff] at hstep
  rcases hstep with ⟨hallow, t', ht', rfl⟩
  rcases sysStep_cases ht' with ⟨ml, rfl, hmaster⟩ | ⟨i, wl, w, evs, rfl, hwork, rfl⟩
  · cases hmaster with
    | @mqSend i blk rest taken alive noted hsq =>
      rw [show noted = true from hcalm]
      exact mqSend_due hsq taken alive s.sent
    | accept | acceptLost | frame | frameLost | hangup => exact hinner.elim
  · have hlt := hwork.due_lt (h.delivering.synced.follows i).sane hallow
    have hsum := allDue_change s.sys.works _ s.sent _ i
      (fun j hj => Function.update_of_ne hj w s.sys.works) fun j hj => sentAfter_other hj s.sent wl
    rw [Function.update_self] at hsum
    show allDue (Function.update s.sys.works i w) (sentAfter s.sent (.work i wl)) < _
    omega

/-! ## The system stands still only at rest -/

/-- A step of the system that such a service may take is one of its steps. -/
theorem replyStep_ne_none {l : Lbl} {s : ReplySt} (hallow : ReplyAllows answer l s)
    (hstep : sysStep l s.sys ≠ none) : replyStep answer l s ≠ none := by
  simpa [replyStep, hallow] using hstep

/-- A worker's session bears its number. -/
theorem Answering.sess_id {s : ReplySt} (h : Answering answer s) {i fd : Int32}
    (hphase : (s.sys.works i).phase = .inProc fd) :
    (∃ blk, (s.sys.works i).asked = some blk) ∧
      ∃ x, getFd (s.sys.works i).fds fd = some x ∧ x.sess.id = i := by
  rcases (h.replying i).called fd hphase with ⟨hclosing, blk, rest, x, hrq, hfd, hx, hconn⟩
  have hknown := (h.delivering.synced.marks i).rq blk (by simp [hrq])
  rcases hknown with ⟨c, a, hc, ha, hafd, hidx⟩
  rcases h.delivering.serves c a ha with ⟨st, _, hstage⟩
  have hheld : (s.sys.works a.idx).held a.fd = some x := by
    rw [hidx, hafd, hfd, Work.held, if_neg (by simp [hclosing, hphase])]
    exact hx
  rcases hstage.live_of_held hheld (hconn.trans hc) with ⟨hown, _⟩
  refine ⟨⟨blk, asked_inProc hphase hrq⟩, x, hx, ?_⟩
  rw [hown, ← hidx]
  rfl

/-- **A worker with something to do can do it.** -/
theorem Answering.work_moves {s : ReplySt} (h : Answering answer s) (i : Int32)
    (hstuck : ∀ l, replyStep answer (.work i l) s = none) : (s.sys.works i).rq = [] := by
  -- no step that the service allows is possible
  have hnone : ∀ l, ReplyAllows answer (.work i l) s → workStep i l (s.sys.works i) = none := by
    intro l hallow
    cases hstep : workStep i l (s.sys.works i) with
    | none => rfl
    | some r =>
      have hsys : sysStep (.work i l) s.sys ≠ none := by simp [sysStep, hstep]
      exact absurd (hstuck l) (replyStep_ne_none hallow hsys)
  have hsane := (h.delivering.synced.follows i).sane
  have hclosing : (s.sys.works i).closing = [] := by
    cases hclosing : (s.sys.works i).closing with
    | nil => rfl
    | cons fd rest =>
      have hret := hnone .closedRet trivial
      simp [workStep, hclosing] at hret
  cases hphase : (s.sys.works i).phase with
  | idle =>
    cases hrq : (s.sys.works i).rq with
    | nil => rfl
    | cons blk rest =>
      have hrecv := hnone (.recv true) trivial
      simp [workStep, hphase, hclosing, hsane, hrq] at hrecv
  | inProc fd =>
    -- in `proc_cli_msg` either the answer goes out or the call returns
    rcases h.sess_id hphase with ⟨⟨blk, hasked⟩, x, hx, hid⟩
    cases hsent : s.sent i with
    | none =>
      have hsend := hnone (.sendToCli fd (answer blk.data) true)
        ⟨hsent, hphase, by rw [hasked, Option.map_some]⟩
      simp [workStep, hx, hid] at hsend
    | some ok =>
      have hret := hnone (.procRet (if ok then 0 else -1) true) (by simp [ReplyAllows, hsent])
      cases ok with
      | true => simp [workStep, hphase, hclosing] at hret
      | false => simp [workStep, hphase, hclosing, closeCli, hx, hid] at hret
  | inClosed fd =>
    have hret := hnone .closedRet trivial
    simp [workStep, hclosing, hphase] at hret
  | handled =>
    have hpop := hnone .pop trivial
    simp [workStep, hphase, hclosing] at hpop

/-- A system that stands still has empty queues: whoever has a block could go on. -/
theorem queues_of_stuck {s : ReplySt} (h : Answering answer s)
    (hstuck : ∀ l : Lbl, l.Inner → replyStep answer l s = none) (i : Int32) :
    (s.sys.works i).rq = [] ∧ (s.sys.works i).sq = [] := by
  refine ⟨h.work_moves i fun l => hstuck _ trivial, ?_⟩
  cases hsq : (s.sys.works i).sq with
  | nil => rfl
  | cons blk rest =>
    have hsys : sysStep (.master (.mqSend i 0 true true)) s.sys ≠ none := by
      simp [sysStep, masterStep, hsq]
    exact absurd (hstuck (.master (.mqSend i 0 true true)) trivial)
      (replyStep_ne_none trivial hsys)

/-- **The system settles.** After a run in which no push fails, no descriptor is accepted again
under a block of `sq` and no open connection leaves a part of a block, when nothing arrives
any more: whatever is done next, it comes to an end, and then every queue is empty and every
open client has the answers to all its messages. -/
theorem settles (listeners : Int32 → Option Int32) {ls : List Lbl} {s : ReplySt}
    (hsmooth : Along (replyStep answer) Smooth ls (replyInit listeners))
    (hpushed : ∀ l ∈ ls, l.Pushed)
    (hrun : exec (replyStep answer) ls (replyInit listeners) = some s) : Settles answer s := by
  have hs := answering_of_run listeners hsmooth hrun
  refine ⟨allDue s.sys.works s.sent, fun ms t hinner hms ht => ⟨?_, fun hstuck => ?_⟩⟩
  · have hboth : Along (replyStep answer) (fun l s => l.Inner ∧ Smooth l s) ms s :=
      along_and (along_of_forall (fun l hl => (hinner l hl).1) s) hms
    -- each step takes the rank down
    refine Nat.le_of_add_right_le (exec_length_le (Answering answer)
      (fun s => allDue s.sys.works s.sent) (fun l m m' hm hl hstep => ?_) hs hboth ht)
    exact ⟨replyStep_inv l m m' hm hl.2 hstep, replyStep_due hm hl.1 hl.2.calm hstep⟩
  · have hall : exec (replyStep answer) (ls ++ ms) (replyInit listeners) = some t := by
      rw [exec_append, hrun]
      exact ht
    have halong : Along (replyStep answer) Smooth (ls ++ ms) (replyInit listeners) :=
      along_append hsmooth fun m hm => Option.some.inj (hrun.symm.trans hm) ▸ hms
    have hpushes : ∀ l ∈ ls ++ ms, l.Pushed := by
      intro l hl
      rcases List.mem_append.mp hl with hold | hnew
      · exact hpushed l hold
      · exact (hinner l hnew).2
    -- the two runs are one, at the end of which all invariants hold
    have hend := answering_of_run listeners halong hall
    have hqueues := queues_of_stuck hend hstuck
    exact ⟨hqueues, fun c a ha hslot => hend.all_answered (agreed_of_run listeners hpushes hall) ha
      (hqueues a.idx).1 (hqueues a.idx).2 hslot⟩

/-- A client is accepted and sends a message that no worker has looked at. -/
def unanswered : List Lbl :=
  [.master (.accept 3 5 [127, 0, 0, 1, 80, 0] true true), .work 0 (.recv true), .work 0 .pop,
    .master (.frame 5 [5, 0, 0, 0, 99] true true)]

/-- A message is left when nothing arrives any more; it will be answered. -/
theorem settles_unanswered :
    ∃ s, exec (replyStep echo) unanswered (replyInit oneListener) = some s ∧ Settles echo s := by
  have hsome : (exec (replyStep echo) unanswered (replyInit oneListener)).isSome := by
    decide +kernel
  have hsmooth : Along (replyStep echo) Smooth unanswered (replyInit oneListener) := by
    decide +kernel
  have hpushed : ∀ l ∈ unanswered, l.Pushed := by
    simp [unanswered, Lbl.Pushed, MasterLbl.Pushed, WorkLbl.Pushed]
  rcases Option.isSome_iff_exists.mp hsome with ⟨s, hrun⟩
  exact ⟨s, hrun, settles oneListener hsmooth hpushed hrun⟩

end SServer.Proto
