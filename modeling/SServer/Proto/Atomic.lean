import SServer.Proto.Sessions

/-!
# SServer.Proto.Atomic — closings and full queues

What a worker is to hold behind the blocks of its `rq` (`Work.settled`) is
compared with the clients the master has, in runs in which any push may fail.
`close_cli` and `do_fd_close` do not look at the answer of `mq_push`, nor does
`do_fd_open` keep its client out when it fails: the two sides agree exactly as
long as none of these pushes does.

* `settled_quiet`: to process `rq` brings about what was settled, and nothing else.
* `MasterLbl.Told.atomic`, `WorkLbl.Told.atomic`: the closings that are told are atomic.
* `Agreed.master_untold`, `WorkLbl.untold`: one that is not told breaks the agreement, or is not
  atomic, at once.
* `closings_atomic_iff`: the result, over whole runs.
* `hangupUntold_not_paired`: a hangup with a full `rq`: the worker holds the session for good.

A push of a message or of an answer may fail in any run. No process tries a failed push again,
as in the source.
-/

namespace SServer.Proto

open SServer.Lib SServer.Queue SServer.Worker

/-! ## Behind the blocks of `rq` -/

/-- The session of `n` behind the callbacks that are running. -/
def Work.kept (w : Work) (n : Int32) : Option Sess :=
  if n ∈ w.closing ∨ w.phase = .inClosed n then none else getFd w.fds n

/-- What a block makes of the session of `n`, when `proc_cli_msg` returns `0` and no
callback closes a client. -/
def settleBlk (n : Int32) (x : Option Sess) (blk : Block) : Option Sess :=
  if blk.fd = n then
    match blk.type with
    | .blkOpen => if x.isSome = true ∨ blk.data.length ≠ addrLen then x else some blk.toSess
    | .blkClose => none
    | .blkData | .blkAlign => x
  else x

/-- The session of `n` that the worker will hold after processing its `rq`. -/
def Work.settled (w : Work) (n : Int32) : Option Sess :=
  w.pending.foldl (settleBlk n) (w.kept n)

/-- A block for another descriptor settles nothing here. -/
theorem settleBlk_other {n : Int32} {blk : Block} (hne : blk.fd ≠ n) (x : Option Sess) :
    settleBlk n x blk = x := if_neg hne

/-- Looking at a block with no callback running does to the sessions what the block says. -/
theorem handleBlock_kept {w : Work} (hclosing : w.closing = []) (hidle : w.phase = .idle)
    (blk : Block) (pushed : Bool) (n : Int32) :
    (handleBlock blk pushed w).1.kept n = settleBlk n (w.kept n) blk := by
  have hkept : w.kept n = getFd w.fds n := by
    unfold Work.kept
    rw [hclosing, hidle]
    simp
  rw [hkept]
  unfold handleBlock settleBlk
  by_cases hn : blk.fd = n
  · -- the block is about this descriptor
    rw [if_pos hn, ← hn]
    cases htype : blk.type with
    | blkData =>
      cases hx : getFd w.fds blk.fd with
      | none => simp [Work.kept, hclosing, hx]
      | some x => simp [Work.kept, hclosing, hx]
    | blkOpen =>
      by_cases hrej : (getFd w.fds blk.fd).isSome = true ∨ blk.data.length ≠ addrLen
      · rcases pushSq_frame w (closeBlock blk.id blk.fd blk.conn) pushed with
          ⟨_, _, _, hfds, hcl⟩
        simp only [if_pos hrej]
        simp [Work.kept, hcl, hclosing, hfds]
      · simp only [if_neg hrej]
        simp [Work.kept, hclosing, getFd, saveFd]
    | blkClose =>
      cases hx : getFd w.fds blk.fd with
      | none => simp [Work.kept, hclosing, hx]
      | some x => simp [Work.kept]
    | blkAlign => simp [Work.kept, hclosing]
  · -- it is about another one, whose session alone may change
    rw [if_neg hn]
    have hne : n ≠ blk.fd := Ne.symm hn
    cases htype : blk.type with
    | blkData =>
      cases hx : getFd w.fds blk.fd with
      | none => simp [Work.kept, hclosing]
      | some x => simp [Work.kept, hclosing]
    | blkOpen =>
      by_cases hrej : (getFd w.fds blk.fd).isSome = true ∨ blk.data.length ≠ addrLen
      · rcases pushSq_frame w (closeBlock blk.id blk.fd blk.conn) pushed with
          ⟨_, _, _, hfds, hcl⟩
        simp only [if_pos hrej]
        simp [Work.kept, hcl, hclosing, hfds]
      · simp only [if_neg hrej]
        simp [Work.kept, hclosing, getFd, saveFd, Function.update_of_ne hne]
    | blkClose =>
      cases hx : getFd w.fds blk.fd with
      | none => simp [Work.kept, hclosing]
      | some x => simp [Work.kept, hclosing, hn]
    | blkAlign => simp [Work.kept, hclosing]

/-- The labels of a worker whose callbacks leave its clients alone. -/
def WorkLbl.Quiet : WorkLbl → Prop
  | .recv _ | .closedRet | .pop => True
  | .procRet r _ => r = 0
  | .recvGarbled _ _ | .sendToCli _ _ _ | .closeCli _ _ => False

/-- What looking at a block never touches. -/
theorem handleBlock_frame (blk : Block) (pushed : Bool) (w : Work) :
    (handleBlock blk pushed w).1.rq = w.rq ∧ (handleBlock blk pushed w).1.closing = w.closing ∧
      (handleBlock blk pushed w).1.phase ≠ .idle := by
  unfold handleBlock
  cases blk.type with
  | blkData | blkClose =>
    cases getFd w.fds blk.fd with
    | none => simp
    | some x => simp
  | blkOpen =>
    rcases pushSq_frame w (closeBlock blk.id blk.fd blk.conn) pushed with ⟨hrq, _, _, _, hclosing⟩
    simp only
    split
    · exact ⟨hrq, hclosing, by simp⟩
    · simp
  | blkAlign => simp

/-- **Processing `rq` brings about what was settled**: the steps of a worker whose
callbacks leave its clients alone do not change it. -/
theorem settled_quiet {i : Int32} {l : WorkLbl} {w w' : Work} {evs : List Ev} (hl : l.Quiet)
    (hsane : w.garbled = false) (hstep : WorkStep i w l w' evs) (n : Int32) :
    w'.settled n = w.settled n := by
  cases hstep with
  | @recv blk rest pushed hidle hclosing _ hrq =>
    rcases handleBlock_frame blk pushed w with ⟨hsame, _, hbusy⟩
    unfold Work.settled Work.pending
    rw [handleBlock_kept hclosing hidle, if_neg hbusy, if_pos hidle, hsame, hrq]
    rfl
  | recvGarbled => exact hl.elim
  | procRet _ hphase => simp [Work.settled, Work.kept, Work.pending, hphase]
  | procErr _ hr => exact absurd hl hr
  | @cliRet fd rest hclosing =>
    unfold Work.settled Work.kept
    simp only [Work.pending, hclosing, List.mem_cons]
    by_cases hn : n = fd
    · simp [hn, getFd, removeFd]
    · simp [hn, getFd, removeFd]
  | @blkRet fd hclosing hphase =>
    unfold Work.settled Work.kept
    simp only [Work.pending, hclosing, hphase]
    by_cases hn : fd = n
    · simp [hn, getFd, removeFd]
    · simp [hn, getFd, removeFd, Function.update_of_ne (Ne.symm hn)]
  | pop hphase =>
    rw [hsane]
    simp [Work.settled, Work.kept, Work.pending, hphase]
  | sendToCli => exact hl.elim
  | closeCli => exact hl.elim

/-- With nothing left to process, what was settled is what there is. -/
theorem settled_processed {w : Work} (hidle : w.phase = .idle) (hclosing : w.closing = [])
    (hrq : w.rq = []) (n : Int32) : w.settled n = getFd w.fds n := by
  simp [Work.settled, Work.kept, Work.pending, hidle, hclosing, hrq]

/-! ## What is to hold -/

/-- Every session a worker will hold after processing its `rq` is that of a client
the master has open, and every open client without such a session has its
`BLK_CLOSE` in `sq`. -/
structure Paired (s : Sys) : Prop where
  held : ∀ i n x, (s.works i).settled n = some x →
    ∃ c, x.conn = some c ∧ s.slots n = .cli i c
  served : ∀ i n c, s.slots n = .cli i c →
    (∃ x, (s.works i).settled n = some x ∧ x.conn = some c) ∨ CloseSentFor (s.works i) n c

/-- `do_fd_close` forgets a client only with its `BLK_CLOSE` queued on `rq`, and
`close_cli` goes on to remove its session only with its `BLK_CLOSE` queued on `sq`. -/
def Atomic : Lbl → Sys → Prop
  | .master l, s => ∀ t, masterStep l s = some t → ∀ n i c, s.slots n = .cli i c →
      t.slots n = .null → (t.works i).rq = (s.works i).rq ++ [closeBlock i n (some c)]
  | .work i l, s => ∀ w evs, workStep i l (s.works i) = some (w, evs) → ∀ n,
      w.closing = n :: (s.works i).closing →
        ∃ o, w.sq = (s.works i).sq ++ [closeBlock i n o]

/-! ## While closings are told -/

/-- What the blocks tell of a session is what they tell of its connection. -/
theorem settle_sess {n : Int32} : ∀ {bs : List Block} {x : Option Sess} {cur o : Option Conn},
    exec (lifeStep n) bs cur = some o → (∀ b ∈ bs, b.conn ≠ none) →
    (∀ y, x = some y → y.conn = cur ∧ cur ≠ none) →
    ∀ y, bs.foldl (settleBlk n) x = some y → y.conn = o ∧ o ≠ none := by
  intro bs
  induction bs with
  | nil =>
    intro x cur o h _ hx
    cases h
    exact hx
  | cons b bs ih =>
    intro x cur o h hmark hx
    rcases exec_cons_some.mp h with ⟨m, hm, hrest⟩
    refine ih hrest (fun b' hb' => hmark b' (List.mem_cons_of_mem b hb')) ?_
    intro y hy
    unfold lifeStep at hm
    unfold settleBlk at hy
    by_cases hfd : b.fd = n
    swap
    · rw [if_neg hfd] at hm hy
      cases hm
      exact hx y hy
    rw [if_pos hfd] at hm hy
    cases htype : b.type with
    | blkOpen =>
      simp only [htype, Option.ite_none_right_eq_some] at hm hy
      rcases hm with ⟨⟨hfree, hlen⟩, hcur⟩
      -- a descriptor that is opened was free, so it had no session
      have hnone : x = none := by
        cases hcase : x with
        | none => rfl
        | some z => exact absurd hfree (hx z hcase).2
      rw [if_neg (by simp [hnone, hlen])] at hy
      cases hy
      cases hcur
      exact ⟨rfl, hmark b List.mem_cons_self⟩
    | blkData =>
      simp only [htype, Option.ite_none_right_eq_some] at hm hy
      cases hm.2
      exact hx y hy
    | blkClose =>
      simp only [htype] at hy
      cases hy
    -- `mq_get` never returns one
    | blkAlign =>
      simp only [htype] at hm
      cases hm

/-- And once they tell of an opening or a closing, there is a session exactly where
there is a connection. -/
theorem settle_full {n : Int32} : ∀ {bs : List Block} {x : Option Sess} {cur o : Option Conn},
    exec (lifeStep n) bs cur = some o → (x = none → cur = none) ∨ ¬ CaughtUp n bs →
    bs.foldl (settleBlk n) x = none → o = none := by
  intro bs
  induction bs with
  | nil =>
    intro x cur o h hx hnone
    cases h
    rcases hx with hfull | hbehind
    · exact hfull hnone
    · exact absurd (fun b hb => (List.not_mem_nil hb).elim) hbehind
  | cons b bs ih =>
    intro x cur o h hx hnone
    rcases exec_cons_some.mp h with ⟨m, hm, hrest⟩
    refine ih hrest ?_ hnone
    unfold lifeStep at hm
    unfold settleBlk
    -- a block of data, or of another descriptor, changes nothing
    have hsame : (b.fd = n → b.type = .blkData) → m = cur →
        (x = none → m = none) ∨ ¬ CaughtUp n bs := by
      intro hb hcur
      rw [hcur]
      rcases hx with hfull | hbehind
      · exact Or.inl hfull
      · right
        intro hdata
        refine hbehind fun b' hb' hfd' => ?_
        rcases List.mem_cons.mp hb' with hnow | hlater
        · rw [hnow] at hfd' ⊢
          exact hb hfd'
        · exact hdata b' hlater hfd'
    by_cases hfd : b.fd = n
    swap
    · rw [if_neg hfd] at hm ⊢
      exact hsame (fun heq => absurd heq hfd) (Option.some.inj hm).symm
    rw [if_pos hfd] at hm ⊢
    cases htype : b.type with
    | blkOpen =>
      left
      intro hno
      simp only at hno
      by_cases hrej : x.isSome = true ∨ b.data.length ≠ addrLen
      · rw [if_pos hrej] at hno
        simp only [htype, Option.ite_none_right_eq_some] at hm
        simp [hno, hm.1.2] at hrej
      · rw [if_neg hrej] at hno
        cases hno
    | blkData =>
      simp only [htype, Option.ite_none_right_eq_some] at hm ⊢
      exact hsame (fun _ => htype) (Option.some.inj hm.2).symm
    | blkClose =>
      simp only [htype, Option.ite_none_right_eq_some] at hm
      exact Or.inl fun _ => (Option.some.inj hm.2).symm
    | blkAlign =>
      simp only [htype] at hm
      cases hm

/-- A session that is kept is in the table, and its `on_cli_closed` is not running. -/
theorem kept_some {w : Work} {n : Int32} {x : Sess} (h : w.kept n = some x) :
    getFd w.fds n = some x ∧ w.phase ≠ .inClosed n := by
  unfold Work.kept at h
  by_cases hgone : n ∈ w.closing ∨ w.phase = .inClosed n
  · rw [if_pos hgone] at h
    cases h
  · rw [if_neg hgone] at h
    exact ⟨h, fun hshut => hgone (Or.inr hshut)⟩

/-- Where none is kept, the session is gone or on its way out. -/
theorem kept_none {w : Work} {n : Int32} (h : w.kept n = none) (hopen : w.phase ≠ .inClosed n) :
    Dropped w n := by
  unfold Work.kept at h
  by_cases hgone : n ∈ w.closing ∨ w.phase = .inClosed n
  · rcases hgone with hmem | hshut
    · exact Or.inr hmem
    · exact absurd hshut hopen
  · rw [if_neg hgone] at h
    exact Or.inl h

/-- A worker's blocks that are to come bear marks. -/
theorem Agreed.pending_marks {s : Sys} (h : Agreed s) (i : Int32) :
    ∀ b ∈ (s.works i).pending, b.conn ≠ none := by
  intro b hb
  have hmem : b ∈ (s.works i).rq := by
    unfold Work.pending at hb
    by_cases hidle : (s.works i).phase = .idle
    · rw [if_pos hidle] at hb
      exact hb
    · rw [if_neg hidle] at hb
      exact List.mem_of_mem_tail hb
  exact ((h.synced.marks i).rq b hmem).ne_none

/-- **The two sides agree.** -/
theorem Agreed.paired {s : Sys} (h : Agreed s) : Paired s := by
  have hsettle : ∀ i n y, (s.works i).settled n = some y →
      y.conn = connAt i (s.slots n) ∧ connAt i (s.slots n) ≠ none := by
    intro i n
    rcases (h.synced.follows i).tracks n with ⟨cur, htr⟩
    refine settle_sess htr.life (h.pending_marks i) fun y hy => ?_
    rcases kept_some hy with ⟨hfd, hopen⟩
    rw [htr.sess y hfd hopen]
    exact ⟨rfl, ((h.synced.marks i).fds n y hfd).ne_none⟩
  constructor
  · intro i n x hx
    rcases hsettle i n x hx with ⟨hconn, hne⟩
    rcases Option.ne_none_iff_exists'.mp hne with ⟨c, hc⟩
    exact ⟨c, hconn.trans hc, connAt_eq_some hc⟩
  · intro i n c hslot
    have ho : connAt i (s.slots n) = some c := by
      rw [hslot]
      exact connAt_self i c
    rcases (h.synced.follows i).tracks n with ⟨cur, htr⟩
    by_cases hsent : CaughtUp n (s.works i).pending ∧ (s.works i).kept n = none
    · right
      have hopen := ((h.synced.follows i).sess_of_caughtUp ho hsent.1).1
      exact h.announces i n c ho hsent.1 (kept_none hsent.2 hopen)
    · left
      cases hx : (s.works i).settled n with
      | some x => exact ⟨x, rfl, (hsettle i n x hx).1.trans ho⟩
      | none =>
        have hgone := settle_full htr.life ?_ hx
        · cases ho.symm.trans hgone
        · by_cases hdata : CaughtUp n (s.works i).pending
          · exact Or.inl fun hkept => absurd ⟨hdata, hkept⟩ hsent
          · exact Or.inr hdata

/-- A client that is told of leaves its `BLK_CLOSE`. -/
theorem doFdClose_queues (fd : Int32) (noted : Bool) (s : Sys) {n i : Int32} {c : Conn}
    (hslot : s.slots n = .cli i c) (hgone : (doFdClose fd noted s).slots n = .null)
    (hnoted : (s.slots fd).conn ≠ none → noted = true) :
    ((doFdClose fd noted s).works i).rq = (s.works i).rq ++ [closeBlock i n (some c)] := by
  have hn : n = fd := by
    by_contra hne
    rw [doFdClose_slots, Function.update_of_ne hne, hslot] at hgone
    cases hgone
  rw [← hn] at hnoted ⊢
  rw [hslot] at hnoted
  rw [hnoted (by simp [Slot.conn])]
  rcases doFdClose_works n true s with ⟨hnull, _⟩ | ⟨_, heq⟩
  · rw [hslot] at hnull
    cases hnull
  · rw [heq, hslot]
    exact congrArg Work.rq (pushRq_self s i _)

/-- **The master's closings are atomic**, as long as they are told. -/
theorem MasterLbl.Told.atomic {l : MasterLbl} {s : Sys} (hl : l.Told s) :
    Atomic (.master l) s := by
  intro t hstep n i c hslot hgone
  cases masterStep_cases hstep with
  | @accept lfd a _ hlfd hpos hfree =>
    rw [pushRq_slots, register_slots] at hgone
    by_cases hn : n = a.fd
    · rw [hn, Function.update_self] at hgone
      cases hgone
    · rw [Function.update_of_ne hn, hslot] at hgone
      cases hgone
  | acceptLost => cases hl
  | frame =>
    rw [pushRq_slots] at hgone
    cases hslot.symm.trans hgone
  | frameLost data noted =>
    exact doFdClose_queues _ noted (s.framed _ data) hslot hgone fun _ => hl rfl
  | hangup noted => exact doFdClose_queues _ noted s hslot hgone fun _ => hl
  | @mqSend j blk rest taken alive noted hsq =>
    by_cases hkept : (s.slots blk.fd).conn ≠ none ∧ blk.type ≠ .blkClose ∧ alive = true
    · rw [hkept.2.2, doBlkSend_kept hkept.1 hkept.2.1] at hgone
      cases hslot.symm.trans hgone
    rcases doBlkSend_cases blk taken alive noted s with ⟨_, heq⟩ | heq
    · rw [heq] at hgone
      cases hslot.symm.trans hgone
    · have hqueued := doFdClose_queues blk.fd noted
        { s with effects := s.effects ++ effectsOf blk taken (s.slots blk.fd) } hslot
        (heq ▸ hgone) fun hconn => by
          apply hl blk (by rw [hsq]; rfl) hconn
          by_contra hno
          rw [not_or, Bool.not_eq_false] at hno
          exact hkept ⟨hconn, hno⟩
      rw [heq, ← hqueued]
      by_cases hij : i = j
      · rw [hij, popSq_self]
      · rw [popSq_other _ hij]

theorem ne_cons_self (n : Int32) (l : List Int32) : l ≠ n :: l := by
  intro h
  have hlen := congrArg List.length h
  simp at hlen

/-- What `close_cli` does, atomically or not. -/
theorem closeCli_queues {i fd n : Int32} {pushed : Bool} {w w' : Work} {evs : List Ev}
    (hclose : closeCli i fd pushed w = some (w', evs)) (hgrown : w'.closing = n :: w.closing) :
    getFd w.fds fd ≠ none ∧ (pushed = true → ∃ o, w'.sq = w.sq ++ [closeBlock i n o]) := by
  rcases closeCli_cases hclose with ⟨_, hw, _⟩ | ⟨x, hx, _, hw⟩
  · rw [hw] at hgrown
    exact absurd hgrown (ne_cons_self n _)
  · rw [hw] at hgrown ⊢
    cases hgrown
    refine ⟨by simp [hx], fun hpushed => ⟨x.conn, ?_⟩⟩
    rw [hpushed]
    rfl

/-- **The workers' closings are atomic**, as long as they are told. -/
theorem WorkLbl.Told.atomic {i : Int32} {l : WorkLbl} {s : Sys} (hl : l.Told (s.works i)) :
    Atomic (.work i l) s := by
  intro w evs hstep n hgrown
  cases workStep_cases hstep with
  | recv pushed | recvGarbled blk pushed =>
    rw [(handleBlock_frame _ pushed _).2.1] at hgrown
    exact absurd hgrown (ne_cons_self n _)
  | procRet | blkRet | pop => exact absurd hgrown (ne_cons_self n _)
  | @procErr fd r w' evs pushed hr hphase _ hclose =>
    rcases closeCli_queues hclose hgrown with ⟨hsess, hqueued⟩
    exact hqueued (hl hr fd hphase hsess)
  | @cliRet fd rest hclosing =>
    have hlen := congrArg List.length hgrown
    simp only [hclosing, List.length_cons] at hlen
    omega
  | sendToCli msg pushed =>
    rw [(pushSq_frame _ _ pushed).2.2.2.2] at hgrown
    exact absurd hgrown (ne_cons_self n _)
  | closeCli pushed hclose =>
    rcases closeCli_queues hclose hgrown with ⟨hsess, hqueued⟩
    exact hqueued (hl hsess)

/-! ## When a closing is not told -/

/-- A closing that is not told leaves the queues alone. -/
theorem doFdClose_silent (fd : Int32) (s : Sys) : (doFdClose fd false s).works = s.works := by
  rcases doFdClose_works fd false s with ⟨_, heq⟩ | ⟨_, heq⟩
  · rw [heq]
  · rw [heq]
    rfl

/-- So it is not atomic, where it closes a client. -/
theorem not_atomic_of_silent {l : MasterLbl} {s t : Sys} (hstep : masterStep l s = some t)
    {fd : Int32} (hconn : (s.slots fd).conn ≠ none) (hgone : t.slots fd = .null)
    (hsame : ∀ i, (t.works i).rq = (s.works i).rq) : ¬ Atomic (.master l) s := by
  intro hatomic
  cases hslot : s.slots fd with
  | null | fresh | listen i =>
    rw [hslot] at hconn
    exact absurd rfl hconn
  | cli i c =>
    have hrq := hatomic t hstep fd i c hslot hgone
    rw [hsame i] at hrq
    have hlen := congrArg List.length hrq
    simp at hlen

/-- A client whose socket fails, or who is to be closed, is. -/
theorem doBlkSend_closed {blk : Block} {s : Sys} {alive : Bool}
    (hconn : (s.slots blk.fd).conn ≠ none) (hcause : blk.type = .blkClose ∨ alive = false)
    (taken : Nat) (noted : Bool) :
    doBlkSend blk taken alive noted s = doFdClose blk.fd noted
      { s with effects := s.effects ++ effectsOf blk taken (s.slots blk.fd) } := by
  rcases doBlkSend_cases blk taken alive noted s with ⟨htype, _⟩ | heq
  · rw [hcause.resolve_left htype]
    unfold doBlkSend doFdSend effectsOf
    rw [if_neg htype]
    cases hslot : s.slots blk.fd with
    | cli idx conn =>
      by_cases hnil : blk.data.take taken = []
      · simp [hnil, htype]
      · simp [hnil, htype]
    | null | fresh | listen idx =>
      rw [hslot] at hconn
      exact absurd rfl hconn
  · exact heq

/-- One more block in `rq` settles what it says. -/
theorem settled_enqueue {w : Work} (hbusy : w.phase ≠ .idle → w.rq ≠ []) (blk : Block)
    (n : Int32) : (w.enqueue blk).settled n = settleBlk n (w.settled n) blk := by
  have hkept : (w.enqueue blk).kept n = w.kept n := rfl
  have hpending : (w.enqueue blk).pending = w.pending ++ [blk] := by
    unfold Work.pending Work.enqueue
    by_cases hidle : w.phase = .idle
    · rw [if_pos hidle, if_pos hidle]
    · rw [if_neg hidle, if_neg hidle]
      exact List.tail_append_of_ne_nil (hbusy hidle)
  unfold Work.settled
  rw [hkept, hpending, List.foldl_append]
  rfl

/-- A closing settles nothing of other descriptors. -/
theorem settled_doFdClose {s : Sys} (hbusy : ∀ i, (s.works i).phase ≠ .idle → (s.works i).rq ≠ [])
    {fd n : Int32} (hne : fd ≠ n) (noted : Bool) (i : Int32) :
    ((doFdClose fd noted s).works i).settled n = (s.works i).settled n := by
  cases noted with
  | false => rw [doFdClose_silent]
  | true =>
    rcases doFdClose_works fd true s with ⟨_, heq⟩ | ⟨_, heq⟩
    · rw [heq]
    · rw [heq]
      change ((s.pushRq (s.slots fd).idx _ true).works i).settled n = _
      by_cases hi : i = (s.slots fd).idx
      · rw [hi, pushRq_self, settled_enqueue (hbusy _)]
        exact settleBlk_other hne _
      · rw [pushRq_other s hi]

/-- A client whose `BLK_OPEN` was lost is open, and no one knows of it. -/
theorem not_paired_of_acceptLost {s : Sys} (h : Agreed s) {lfd : Int32} {a : Accepted}
    (hlfd : s.slots lfd = .listen a.idx) (hfree : s.slots a.fd = .null ∨ s.slots a.fd = .fresh)
    (noted : Bool) : ¬ Paired (doFdClose lfd noted (s.register a)) := by
  intro hpaired
  have hne : lfd ≠ a.fd := by
    intro heq
    rw [heq] at hlfd
    rcases hfree with hnull | hfresh
    · cases hlfd.symm.trans hnull
    · cases hlfd.symm.trans hfresh
  have hslot : (doFdClose lfd noted (s.register a)).slots a.fd = .cli a.idx s.conns.length := by
    rw [doFdClose_slots, Function.update_of_ne (Ne.symm hne), register_slots,
      Function.update_self]
  rcases hpaired.served a.idx a.fd _ hslot with ⟨x, hx, _⟩ | ⟨b, hb, _, _, hconn⟩
  · rw [settled_doFdClose (s := s.register a) (fun i => (h.synced.follows i).busy) hne] at hx
    rcases h.paired.held a.idx a.fd x hx with ⟨c, _, hcli⟩
    rcases hfree with hnull | hfresh
    · cases hcli.symm.trans hnull
    · cases hcli.symm.trans hfresh
  · rw [doFdClose_sq] at hb
    rcases (h.synced.marks a.idx).sq b hb with ⟨c, a', hc, ha', _⟩
    rw [hconn] at hc
    cases hc
    have hlt := (List.getElem?_eq_some_iff.mp ha').1
    exact absurd hlt (Nat.lt_irrefl _)

/-- **A step of the master that is not told** breaks the agreement at once. -/
theorem Agreed.master_untold {s t : Sys} {l : MasterLbl} (h : Agreed s) (hl : ¬ l.Told s)
    (hstep : masterStep l s = some t) : ¬ (Atomic (.master l) s ∧ Paired t) := by
  rintro ⟨hatomic, hpaired⟩
  cases masterStep_cases hstep with
  -- a `BLK_OPEN` that is pushed tells the worker
  | accept => exact hl rfl
  | acceptLost noted hlfd _ hfree _ => exact not_paired_of_acceptLost h hlfd hfree noted hpaired
  | frame => exact hl fun hno => nomatch hno
  | @frameLost fd idx conn data noted hslot =>
    have hno : noted = false := by
      by_contra hyes
      exact hl fun _ => by simpa using hyes
    rw [hno] at hstep hatomic
    have hconn : (s.slots fd).conn ≠ none := by simp [hslot, Slot.conn]
    refine not_atomic_of_silent hstep hconn ?_ ?_ hatomic
    · rw [doFdClose_slots, Function.update_self]
    · exact fun i => by rw [doFdClose_silent]; rfl
  | @hangup fd idx conn noted hslot =>
    have hno : noted = false := by
      by_contra hyes
      exact hl (by simpa [MasterLbl.Told] using hyes)
    rw [hno] at hstep hatomic
    have hconn : (s.slots fd).conn ≠ none := by simp [hslot, Slot.conn]
    refine not_atomic_of_silent hstep hconn ?_ ?_ hatomic
    · rw [doFdClose_slots, Function.update_self]
    · exact fun i => by rw [doFdClose_silent]
  | @mqSend i blk rest taken alive noted hsq =>
    -- the connection that the block is for is closed by this step
    have hfacts : (s.slots blk.fd).conn ≠ none ∧ (blk.type = .blkClose ∨ alive = false) ∧
        noted = false := by
      by_contra hno
      refine hl fun blk' hblk' hconn hcause => ?_
      rw [hsq] at hblk'
      cases hblk'
      by_contra hyes
      exact hno ⟨hconn, hcause, by simpa using hyes⟩
    rcases hfacts with ⟨hconn, hcause, hno⟩
    rw [hno] at hstep hatomic
    rw [doBlkSend_closed hconn hcause] at hstep
    refine not_atomic_of_silent hstep hconn ?_ ?_ hatomic
    · -- closed, and no worker hears of it
      exact (doFdClose_slots blk.fd false _ ▸ Function.update_self _ _ _ :)
    · intro j
      by_cases hj : j = i
      · rw [hj, popSq_self, doFdClose_silent]
      · rw [popSq_other _ hj, doFdClose_silent]

/-- **A step of a worker that is not told** is not atomic. -/
theorem WorkLbl.untold {i : Int32} {l : WorkLbl} {s : Sys} {w : Work} {evs : List Ev}
    (hl : ¬ l.Told (s.works i)) (hstep : workStep i l (s.works i) = some (w, evs)) :
    ¬ Atomic (.work i l) s := by
  intro hatomic
  -- a `close_cli` with a session and without its block
  have hsilent : ∀ {fd : Int32} {v : Work}, v.closing = (s.works i).closing →
      v.sq = (s.works i).sq → v.fds = (s.works i).fds → getFd (s.works i).fds fd ≠ none →
      Proto.closeCli i fd false v = some (w, evs) → False := by
    intro fd v hclosing hsq hfds hsess hclose
    rcases closeCli_cases hclose with ⟨hnone, _⟩ | ⟨x, _, _, hw⟩
    · rw [hfds] at hnone
      exact hsess hnone
    · rcases hatomic w evs hstep fd (by rw [hw, hclosing]) with ⟨o, hqueued⟩
      rw [hw, ← hsq] at hqueued
      have hlen := congrArg List.length hqueued
      simp [Work.pushSq] at hlen
  cases workStep_cases hstep with
  | @procErr fd r w' evs pushed hr hphase _ hclose =>
    refine hl fun _ fd' hphase' hsess => ?_
    rw [hphase] at hphase'
    cases hphase'
    by_contra hno
    rw [show pushed = false by simpa using hno] at hclose
    exact hsilent (v := { s.works i with phase := .handled }) rfl rfl rfl hsess hclose
  | @closeCli fd w' evs pushed hclose =>
    refine hl fun hsess => ?_
    by_contra hno
    rw [show pushed = false by simpa using hno] at hclose
    exact hsilent rfl rfl rfl hsess hclose
  | procRet pushed => exact hl fun hr => absurd rfl hr
  | recv | recvGarbled | cliRet | blkRet | pop | sendToCli => exact hl trivial

/-- **Closings are atomic and the two sides agree, in every state of a run, exactly
when no push of a `BLK_OPEN` or a `BLK_CLOSE` in it fails.** -/
theorem closings_atomic_iff (listeners : Int32 → Option Int32) (ls : List Lbl) :
    Throughout sysStep Paired ls (sysInit listeners) ∧
        Along sysStep Atomic ls (sysInit listeners) ↔
      Along sysStep Lbl.Told ls (sysInit listeners) := by
  refine throughout_and_along_iff Agreed (fun _ hs => hs.paired) (fun l s t hs hstep => ?_)
    (agreed_init listeners)
  by_cases hl : l.Told s
  · left
    refine ⟨hl, ?_, hs.step hl hstep⟩
    cases l with
    | master l => exact MasterLbl.Told.atomic hl
    | work i l => exact WorkLbl.Told.atomic hl
  · right
    refine ⟨hl, ?_⟩
    cases l with
    | master l => exact hs.master_untold hl hstep
    | work i l =>
      simp only [sysStep, Option.map_eq_some_iff] at hstep
      rcases hstep with ⟨⟨w, evs⟩, hwork, _⟩
      exact fun hboth => WorkLbl.untold hl hwork hboth.1

/-- A client is accepted as descriptor 5 and gets its session; it hangs up while
`rq` is full. -/
def hangupUntold : List Lbl :=
  [.master (.accept 3 5 [127, 0, 0, 1, 80, 0] true true), .work 0 (.recv true), .work 0 .pop,
    .master (.hangup 5 false)]

/-- The worker holds the session for good, and the master has no such client. -/
theorem hangupUntold_not_paired :
    ¬ ∀ (listeners : Int32 → Option Int32) (ls : List Lbl) (s : Sys),
      exec sysStep ls (sysInit listeners) = some s → Paired s := by
  intro hclaim
  have hsome : (exec sysStep hangupUntold (sysInit oneListener)).isSome := by decide +kernel
  have hfacts : ∀ s ∈ exec sysStep hangupUntold (sysInit oneListener),
      ((s.works 0).settled 5).isSome = true ∧ s.slots 5 = .null := by
    decide +kernel
  rcases Option.isSome_iff_exists.mp hsome with ⟨s, hrun⟩
  rcases hfacts s hrun with ⟨hheld, hnull⟩
  rcases Option.isSome_iff_exists.mp hheld with ⟨x, hx⟩
  rcases (hclaim oneListener hangupUntold s hrun).held 0 5 x hx with ⟨c, _, hslot⟩
  cases hnull.symm.trans hslot

end SServer.Proto
