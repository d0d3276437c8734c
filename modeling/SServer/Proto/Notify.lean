import SServer.Proto.Life

/-!
# SServer.Proto.Notify — no side forgets a client silently

The master tells a worker of each connection it opens and of each it closes, and
the worker answers with a `BLK_CLOSE` of its own when it drops a client first.
Here a push may fail, as long as it is not one of these: a message, or what is
sent to a client, may be refused by a full queue. Then a session that a worker is
to hold behind all the blocks of `rq` is that of an open connection, and an open
connection without one has its `BLK_CLOSE` on the way.

* `Agreed`: the invariant: a settled session is that of an open connection, and an open
  connection without one has its `BLK_CLOSE` on the way.
* `Announces.step`: a step of a worker drops no registered client silently.
* `Agreed.master`: nor does a step of the master, as long as its workers are told.

Only the direction "as long as they are told" is here; `SServer.Proto.Atomic` shows that it
cannot do without.
-/

namespace SServer.Proto

open SServer.Lib SServer.Queue SServer.Worker

/-- The `BLK_CLOSE` of `close_cli` comes to `sq`. -/
def WorkLbl.Told : WorkLbl → Work → Prop
  | .procRet r pushed, w =>
    r ≠ 0 → ∀ fd, w.phase = .inProc fd → getFd w.fds fd ≠ none → pushed = true
  | .closeCli fd pushed, w => getFd w.fds fd ≠ none → pushed = true
  | _, _ => True

/-- No push of a `BLK_OPEN` or `BLK_CLOSE` fails. -/
def Lbl.Told : Lbl → Sys → Prop
  | .master l, s => l.Told s
  | .work i l, s => l.Told (s.works i)

/-- The blocks tell nothing of `n` but data. -/
def CaughtUp (n : Int32) (bs : List Block) : Prop := ∀ b ∈ bs, b.fd = n → b.type = .blkData

/-- The worker has no session for `n`, or is about to remove it after a `close_cli`. -/
def Dropped (w : Work) (n : Int32) : Prop := getFd w.fds n = none ∨ n ∈ w.closing

/-- The `BLK_CLOSE` of connection `c` is on its way to the master. -/
def CloseSentFor (w : Work) (n : Int32) (c : Conn) : Prop :=
  ∃ b ∈ w.sq, b.type = .blkClose ∧ b.fd = n ∧ b.conn = some c

/-- A worker that has caught up on a registered client and dropped it has sent
the `BLK_CLOSE` of its connection. -/
def Announces (w : Work) (o : Int32 → Option Conn) : Prop :=
  ∀ n c, o n = some c → CaughtUp n w.pending → Dropped w n → CloseSentFor w n c

/-- The invariant. -/
structure Agreed (s : Sys) : Prop where
  synced : Synced s
  announces : ∀ i, Announces (s.works i) fun n => connAt i (s.slots n)

/-- No session and no connection at first. -/
theorem agreed_init (listeners : Int32 → Option Int32) : Agreed (sysInit listeners) := by
  refine ⟨synced_init listeners, fun i n c ho => ?_⟩
  cases (init_connAt listeners n i).symm.trans ho

/-- A worker that has caught up takes the descriptor for what it is. -/
theorem exec_caughtUp {n : Int32} : ∀ {bs : List Block} {cur o : Option Conn},
    exec (lifeStep n) bs cur = some o → CaughtUp n bs → cur = o := by
  intro bs
  induction bs with
  | nil =>
    intro cur o h _
    exact Option.some.inj h
  | cons b bs ih =>
    intro cur o h hdata
    rcases exec_cons_some.mp h with ⟨m, hm, hrest⟩
    have hsame : m = cur := by
      unfold lifeStep at hm
      by_cases hfd : b.fd = n
      · rw [if_pos hfd, hdata b List.mem_cons_self hfd] at hm
        simp only [Option.ite_none_right_eq_some] at hm
        exact (Option.some.inj hm.2).symm
      · rw [if_neg hfd] at hm
        exact (Option.some.inj hm).symm
    rw [← hsame]
    exact ih hrest fun b' hb' => hdata b' (List.mem_cons_of_mem b hb')

/-! ## Steps of the worker -/

/-- `sq` may have grown, and nothing has been dropped without its `BLK_CLOSE`. -/
theorem Announces.congr {w w' : Work} {o : Int32 → Option Conn} (h : Announces w o)
    (hpending : w'.pending = w.pending)
    (hdropped : ∀ n c, o n = some c → CaughtUp n w.pending → Dropped w' n →
      Dropped w n ∨ CloseSentFor w' n c)
    (hsq : ∀ b ∈ w.sq, b ∈ w'.sq) : Announces w' o := by
  intro n c ho hdata hdrop
  rw [hpending] at hdata
  rcases hdropped n c ho hdata hdrop with hold | hsent
  · rcases h n c ho hdata hold with ⟨b, hb, hclose⟩
    exact ⟨b, hsq b hb, hclose⟩
  · exact hsent

/-- Behind `proc_cli_msg`, the block is handled. -/
theorem Announces.handled {w : Work} {o : Int32 → Option Conn} (h : Announces w o)
    (hbusy : w.phase ≠ .idle) : Announces { w with phase := .handled } o := by
  refine h.congr ?_ (fun n c _ _ hdrop => Or.inl hdrop) fun b hb => hb
  simp [Work.pending, hbusy]

/-- Looking at the oldest block. -/
theorem Announces.handleBlock {w : Work} {o : Int32 → Option Conn} (h : Announces w o)
    (hf : Follows w o) {blk : Block} {rest : List Block} (hidle : w.phase = .idle)
    (hclosing : w.closing = []) (hrq : w.rq = blk :: rest)
    (hmark : ∀ fd x, getFd w.fds fd = some x → x.conn ≠ none) (pushed : Bool) :
    Announces (handleBlock blk pushed w).1 o := by
  have hpending : w.pending = blk :: w.rq.tail := by
    unfold Work.pending
    rw [if_pos hidle, hrq, List.tail_cons]
  rcases hf.oldest hidle hrq blk.fd with ⟨cur, cur', hold⟩
  have hsess := fun x hx => And.intro (hold.sess x hx) (hmark blk.fd x hx)
  have hlook := handleBlock_looked pushed hold.step hsess
  intro n c ho hdata hdrop
  unfold CloseSentFor
  rw [hlook.pending] at hdata
  rw [hlook.sq]
  unfold Dropped at hdrop
  rw [hlook.closing] at hdrop
  -- what was so before, is so
  have hbefore : (blk.fd = n → blk.type = .blkData) → Dropped w n → CloseSentFor w n c := by
    intro hhead hdrop
    refine h n c ho ?_ hdrop
    rw [hpending]
    intro b hb hfd
    rcases List.mem_cons.mp hb with hnow | hlater
    · rw [hnow] at hfd ⊢
      exact hhead hfd
    · exact hdata b hlater hfd
  by_cases hn : n = blk.fd
  swap
  · rw [(hlook.others n hn).1] at hdrop
    exact hbefore (fun hfd => absurd hfd.symm hn) hdrop
  rw [hn] at ho hdata hdrop hbefore ⊢
  have hkept : ∀ x, getFd (Proto.handleBlock blk pushed w).1.fds blk.fd ≠ some x := by
    intro x hx
    rw [hx, hclosing] at hdrop
    simp at hdrop
  rcases handleBlock_cases pushed hold.step hsess with
    ⟨_, _, _, _, heq⟩ | ⟨hnone, htype, _⟩ | ⟨x, hx, _, ⟨_, _, heq⟩ | ⟨_, _, heq⟩⟩
  · refine absurd ?_ (hkept blk.toSess)
    rw [heq]
    simp [getFd, saveFd]
  · have hstep := hold.step
    unfold lifeStep at hstep
    rw [if_pos rfl] at hstep
    cases hkind : blk.type with
    | blkData => exact hbefore (fun _ => hkind) (Or.inl hnone)
    | blkClose =>
      -- the client is closed, so something else is to come
      simp only [hkind, Option.ite_none_right_eq_some] at hstep
      cases hstep.2
      cases (exec_caughtUp hold.rest hdata).trans ho
    | blkOpen => exact absurd hkind htype
    | blkAlign =>
      simp only [hkind] at hstep
      cases hstep
  · refine absurd ?_ (hkept x)
    rw [heq]
    exact hx
  · refine absurd ?_ (hkept x)
    rw [heq]
    exact hx

/-- What is in `sq` stays when more comes. -/
theorem mem_pushSq {w : Work} {blk b : Block} (hb : b ∈ w.sq) (pushed : Bool) :
    b ∈ (w.pushSq blk pushed).sq := by
  cases pushed with
  | false => exact hb
  | true => exact List.mem_append_left _ hb

/-- What the worker takes a descriptor for, once it has caught up on it: the open
connection, of which any session is. -/
theorem Follows.sess_of_caughtUp {w : Work} {o : Int32 → Option Conn} (h : Follows w o)
    {n : Int32} {c : Conn} (ho : o n = some c) (hdata : CaughtUp n w.pending) :
    w.phase ≠ .inClosed n ∧ ∀ x, getFd w.fds n = some x → x.conn = some c := by
  rcases h.tracks n with ⟨cur, htr⟩
  have hcur : cur = some c := (exec_caughtUp htr.life hdata).trans ho
  have hopen : w.phase ≠ .inClosed n := by
    intro hshut
    rw [htr.shut hshut] at hcur
    cases hcur
  exact ⟨hopen, fun x hx => (htr.sess x hx hopen).symm.trans hcur⟩

/-- A `close_cli` drops its client, and sends its `BLK_CLOSE`. -/
theorem Announces.closeCli {i fd : Int32} {pushed : Bool} {w w' : Work} {evs : List Ev}
    {o : Int32 → Option Conn} (h : Announces w o) (hf : Follows w o)
    (htold : getFd w.fds fd ≠ none → pushed = true)
    (hclose : closeCli i fd pushed w = some (w', evs)) : Announces w' o := by
  rcases closeCli_cases hclose with ⟨_, hw, _⟩ | ⟨x, hx, _, hw⟩
  · rw [hw]
    exact h
  · rw [hw, htold (by simp [hx])]
    refine h.congr rfl (fun n c ho hdata hdrop => ?_) (fun b hb => mem_pushSq hb true)
    rcases hdrop with hnone | hmem
    · exact Or.inl (Or.inl hnone)
    · rcases List.mem_cons.mp hmem with hnow | hbefore
      · right
        rw [hnow] at ho hdata
        refine ⟨closeBlock i fd x.conn, List.mem_append_right _ (List.mem_singleton.mpr rfl), rfl,
          hnow.symm, ?_⟩
        exact (hf.sess_of_caughtUp ho hdata).2 x hx
      · exact Or.inl (Or.inr hbefore)

/-- **A worker drops no registered client silently.** -/
theorem Announces.step {i : Int32} {l : WorkLbl} {w w' : Work} {evs : List Ev}
    {o : Int32 → Option Conn} (h : Announces w o) (hf : Follows w o)
    (hmark : ∀ fd x, getFd w.fds fd = some x → x.conn ≠ none) (hl : l.Told w)
    (hstep : WorkStep i w l w' evs) : Announces w' o := by
  cases hstep with
  | recv pushed hidle hclosing _ hrq => exact h.handleBlock hf hidle hclosing hrq hmark pushed
  | recvGarbled blk pushed _ _ hgarbled =>
    rw [hf.sane] at hgarbled
    cases hgarbled
  | procRet _ hphase => exact h.handled (by simp [hphase])
  | @procErr fd r w' evs pushed hr hphase _ hclose =>
    have hdone : Follows { w with phase := .handled } o :=
      hf.handled (by simp [hphase]) fun n x hx => ⟨hx, by simp [hphase]⟩
    exact (h.handled (by simp [hphase])).closeCli hdone (hl hr fd hphase) hclose
  | @cliRet fd rest hclosing =>
    refine h.congr rfl (fun n c _ _ hdrop => Or.inl ?_) fun b hb => hb
    unfold Dropped
    rw [hclosing]
    by_cases hn : n = fd
    · exact Or.inr (by rw [hn]; exact List.mem_cons_self)
    · rcases hdrop with hnone | hmem
      · simp only [getFd, removeFd, Function.update_of_ne hn] at hnone
        exact Or.inl hnone
      · exact Or.inr (List.mem_cons_of_mem fd hmem)
  | @blkRet fd hclosing hphase =>
    intro n c ho hdata hdrop
    have hpending : w.pending = w.rq.tail := by simp [Work.pending, hphase]
    have hdata' : CaughtUp n w.pending := by simpa [Work.pending, hphase] using hdata
    refine h n c ho hdata' ?_
    have hn : n ≠ fd := by
      -- the block of this closing was the last word on `fd`
      intro hn
      have hopen := (hf.sess_of_caughtUp ho hdata').1
      rw [hn] at hopen
      exact hopen hphase
    unfold Dropped at hdrop
    simp only [getFd, removeFd, Function.update_of_ne hn] at hdrop
    exact hdrop
  | pop hphase =>
    rw [hf.sane]
    exact h.congr (by simp [Work.pending, hphase]) (fun n c _ _ hdrop => Or.inl hdrop)
      fun b hb => hb
  | @sendToCli fd x msg pushed =>
    rcases pushSq_frame w ⟨.blkData, i, fd, msg, x.conn⟩ pushed with
      ⟨hrq, hphase, _, hfds, hclosing⟩
    refine h.congr (by unfold Work.pending; rw [hrq, hphase]) (fun n c _ _ hdrop => Or.inl ?_)
      fun b hb => mem_pushSq hb pushed
    unfold Dropped at hdrop ⊢
    rw [hfds, hclosing] at hdrop
    exact hdrop
  | closeCli pushed hclose => exact h.closeCli hf hl hclose

/-- **A worker closes no client silently**, as long as its `BLK_CLOSE` gets through. -/
theorem Agreed.work {s : Sys} (h : Agreed s) {i : Int32} {l : WorkLbl} {w : Work}
    {evs : List Ev} (hl : l.Told (s.works i)) (hstep : WorkStep i (s.works i) l w evs) :
    Agreed { s with works := Function.update s.works i w, calls := s.calls ++ evs } := by
  refine ⟨h.synced.work hstep, fun j => ?_⟩
  by_cases heq : j = i
  · rw [heq]
    simp only [Function.update_self]
    exact (h.announces i).step (h.synced.follows i)
      (fun fd x hx => ((h.synced.marks i).fds fd x hx).ne_none) hl hstep
  · simp only [Function.update_of_ne heq]
    exact h.announces j

/-! ## Steps of the master -/

/-- What the master publishes is a client gone, or not yet caught up on, or nothing
new but data. -/
theorem announces_publish {s : Sys} (h : Agreed s) (idx : Int32) (blk : Block) {slot : Slot}
    (hkind : slot = .null ∨ blk.type ≠ .blkData ∨ slot = s.slots blk.fd)
    (hother : ∀ i, i ≠ idx → connAt i slot = none) :
    ∀ i, Announces ((s.pushRq idx blk true).works i)
      fun n => connAt i (Function.update s.slots blk.fd slot n) := by
  intro i n c ho hdata hdrop
  by_cases hi : i = idx
  · rw [hi] at ho hdata hdrop ⊢
    rw [pushRq_self] at hdata hdrop ⊢
    rw [(h.synced.follows idx).pending_push] at hdata
    refine h.announces idx n c ?_ (fun b hb => hdata b (List.mem_append_left _ hb)) hdrop
    by_cases hn : n = blk.fd
    · simp only [hn, Function.update_self] at ho
      rcases hkind with hnull | htype | hsame
      · rw [hnull] at ho
        cases ho
      · exact absurd (hdata blk (List.mem_append_right _ (List.mem_singleton.mpr rfl)) hn.symm)
          htype
      · rw [hn]
        simp only
        rw [← hsame]
        exact ho
    · simp only [Function.update_of_ne hn] at ho
      exact ho
  · rw [pushRq_other s hi] at hdata hdrop ⊢
    refine h.announces i n c ?_ hdata hdrop
    by_cases hn : n = blk.fd
    · simp only [hn, Function.update_self] at ho
      rw [hother i hi] at ho
      cases ho
    · simp only [Function.update_of_ne hn] at ho
      exact ho

/-- `do_fd_close` keeps the agreement when its `BLK_CLOSE` is pushed, or nobody was connected.
-/
theorem Agreed.doFdClose {s : Sys} (h : Agreed s) {fd : Int32} {noted : Bool}
    (hslot : ¬ (s.slots fd).Other) (hnoted : (s.slots fd).conn ≠ none → noted = true) :
    Agreed (doFdClose fd noted s) := by
  refine ⟨h.synced.doFdClose_told hslot hnoted, ?_⟩
  rw [doFdClose_slots]
  rcases doFdClose_works fd noted s with ⟨hnull, heq⟩ | ⟨hne, heq⟩
  · rw [heq, ← hnull, Function.update_eq_self]
    exact h.announces
  · rw [heq, hnoted (conn_of_not_other hslot hne)]
    exact announces_publish h _ (closeBlock _ fd _) (Or.inl rfl) fun _ _ => rfl

/-- A `BLK_CLOSE` may leave `sq` once its descriptor is free. -/
theorem Agreed.popSq {s : Sys} (h : Agreed s) {j : Int32} {blk : Block} {rest : List Block}
    (hsq : (s.works j).sq = blk :: rest) (hfree : blk.type = .blkClose → s.slots blk.fd = .null) :
    Agreed (s.popSq j) := by
  refine ⟨h.synced.popSq j, fun i => ?_⟩
  by_cases hi : i = j
  · rw [hi, popSq_self]
    intro n c ho hdata hdrop
    rcases h.announces j n c ho hdata hdrop with ⟨b, hb, hclose, hfd, hconn⟩
    rw [hsq] at hb
    rcases List.mem_cons.mp hb with hhead | htail
    · rw [hhead] at hclose hfd
      have hnull : connAt j (s.slots n) = none := by
        rw [← hfd, hfree hclose]
        rfl
      cases hnull.symm.trans ho
    · refine ⟨b, ?_, hclose, hfd, hconn⟩
      simp only [hsq, List.tail_cons]
      exact htail
  · rw [popSq_other s hi]
    exact h.announces i

/-- What has been seen and done plays no part. -/
theorem Agreed.congr {s : Sys} (h : Agreed s) (calls : List Ev) (effects : List Effect) :
    Agreed { s with calls := calls, effects := effects } :=
  ⟨h.synced.congr calls effects, h.announces⟩

/-- **The master closes no client silently**, as long as its workers are told. -/
theorem Agreed.master {s t : Sys} {l : MasterLbl} (h : Agreed s) (hl : l.Told s)
    (hstep : MasterStep s l t) : Agreed t := by
  have hsynced := h.synced.told hl hstep
  cases hstep with
  | @accept lfd a =>
    refine ⟨hsynced, ?_⟩
    rw [pushRq_slots]
    have hopen : (a.openBlock s.conns.length).type ≠ .blkData := by simp [Accepted.openBlock]
    exact announces_publish h a.idx (a.openBlock s.conns.length) (Or.inr (Or.inl hopen))
      fun i hi => connAt_other hi _
  | acceptLost => cases hl
  | @frame fd idx conn data noted hslot =>
    refine ⟨hsynced, ?_⟩
    have hpub := announces_publish h idx (msgBlock idx fd data conn) (Or.inr (Or.inr rfl))
      fun i hi => by
        simp only [msgBlock, hslot]
        exact connAt_other hi conn
    rw [Function.update_eq_self] at hpub
    rw [pushRq_slots]
    exact hpub
  | frameLost data noted hslot =>
    exact (h.congr _ s.effects).doFdClose (cli_not_other hslot) fun _ => hl rfl
  | hangup noted hslot => exact h.doFdClose (cli_not_other hslot) fun _ => hl
  | @mqSend i blk rest taken alive noted hsq =>
    have heff := h.congr s.calls (s.effects ++ effectsOf blk taken (s.slots blk.fd))
    by_cases hkept : (s.slots blk.fd).conn ≠ none ∧ blk.type ≠ .blkClose ∧ alive = true
    · rw [hkept.2.2, doBlkSend_kept hkept.1 hkept.2.1]
      exact heff.popSq hsq fun hclose => absurd hclose hkept.2.1
    rcases doBlkSend_cases blk taken alive noted s with ⟨htype, heq⟩ | heq
    · rw [heq]
      exact heff.popSq hsq fun hclose => absurd hclose htype
    · rw [heq]
      have hclosed : Agreed (Proto.doFdClose blk.fd noted
          { s with effects := s.effects ++ effectsOf blk taken (s.slots blk.fd) }) := by
        refine heff.doFdClose (h.synced.not_other hsq) fun hconn => ?_
        apply hl blk (by rw [hsq]; rfl) hconn
        by_contra hno
        rw [not_or, Bool.not_eq_false] at hno
        exact hkept ⟨hconn, hno⟩
      refine hclosed.popSq ((doFdClose_sq blk.fd i noted _).trans hsq) fun _ => ?_
      rw [doFdClose_slots]
      exact Function.update_self _ _ _

/-- A step at which nothing about a connection is lost keeps the invariant. -/
theorem Agreed.step {l : Lbl} {s t : Sys} (h : Agreed s) (hl : l.Told s)
    (hstep : sysStep l s = some t) : Agreed t := by
  rcases sysStep_cases hstep with ⟨ml, heq, hmaster⟩ | ⟨i, wl, w, evs, heq, hwork, ht⟩
  · rw [heq] at hl
    exact h.master hl hmaster
  · rw [heq] at hl
    rw [ht]
    exact h.work hl hwork

end SServer.Proto
