import SServer.Lib.Run
import SServer.Net.Passes

/-!
# SServer.Net.Room — messages longer than the buffer

`handle_read` has no room to read into when the buffer is full, and says so with `0`,
which both handlers take for a read. A message that is announced longer than
`max_buf_len` fills the buffer and is never complete. A run takes one read or one
pass at a time, with any positive answer of `get_msg_len`.

The result: a handler that returns `0` leaves room, and no message that does not fit,
exactly when no length above `max_buf_len` is announced.

* `roomStep_cases`: a read or a pass, on either side of the condition.
* `Wedged.stays`: once the buffer is full with an incomplete message, nothing the peer sends
  changes it.
* `leaves_room_iff`: the result, for both handlers over whole runs.
* `tooLong_wedges`: a run that ends so.

Answers of `get_msg_len` are positive. The client's own end of the connection, its patience for
instance, is not modelled.
-/

namespace SServer.Net

open SServer.Lib SServer.Queue

variable {Q W : Type}

/-! ## Runs -/

/-- Where a handler is with a connection: not called yet, after a `return 0`, at its
label, after a `return -1`, or caught in an `mq_push`. -/
inductive RoomPhase where
  | fresh
  | idle
  | framing (tmp : Int)
  | closed
  | caught
deriving DecidableEq

/-- A connection, and what has been delivered of it. -/
structure RoomSt (Q : Type) where
  conn : RecvConn
  phase : RoomPhase
  tally : Tally Q

/-- A connection just registered. -/
def roomInit (q : Q) : RoomSt Q :=
  { conn := recvInit, phase := .fresh, tally := { q := q, sent := [], refused := false } }

/-- `handle_read` at the beginning of a call. The kernel maps no empty buffer. -/
def roomRead (max : Int) (mapped : Bool) (outs : List RecvRes) (s : RoomSt Q) :
    Option (RoomSt Q) :=
  match handleRead max (mapped && decide (0 < max)) s.conn outs with
  | .error _ => none
  | .ok (r, c, _) => some { s with conn := c, phase := if r = -1 then .closed else .framing 0 }

/-- A pass from the label, with `tmp_ptr` at `tmp`. -/
def roomPass (pass : PassFn Q) (v : Int32) (tmp : Int) (s : RoomSt Q) : RoomSt Q :=
  match pass v s.conn.buff tmp s.tally with
  | .again buff tmp tally =>
    { conn := { s.conn with buff := buff }, phase := .framing tmp, tally := tally }
  | .done buff tally => { conn := { s.conn with buff := buff }, phase := .idle, tally := tally }
  | .failed buff tally =>
    { conn := { s.conn with buff := buff }, phase := .closed, tally := tally }
  | .crashed => { s with phase := .caught }

/-- One read, or one pass with a positive answer of `get_msg_len`. -/
def roomStep (pass : PassFn Q) (max : Int) : FrameLbl → RoomSt Q → Option (RoomSt Q)
  | .read mapped outs, s =>
    match s.phase with
    | .fresh => roomRead max mapped outs s
    | .idle => roomRead max mapped outs s
    | _ => none
  | .pass v, s =>
    match s.phase with
    | .framing tmp => if 0 < v.toInt then some (roomPass pass v tmp s) else none
    | _ => none

/-- What is to hold: behind a `return 0` the buffer has room, and the message that is
waited for fits into it. -/
def HasRoom (max : Int) (s : RoomSt Q) : Prop :=
  s.phase = .idle → s.conn.buff.rlen < max ∧ s.conn.buff.msglen ≤ max

/-- The condition: a length that `get_msg_len` is asked for is at most `max_buf_len`. -/
def AnnouncesFit (max : Int) : FrameLbl → RoomSt Q → Prop
  | .read _ _, _ => True
  | .pass v, s => s.conn.buff.msglen = 0 ∧ 0 < s.conn.buff.rlen → v.toInt ≤ max

instance (max : Int) : ∀ l s, Decidable (AnnouncesFit (Q := Q) max l s)
  | .read _ _, _ => isTrue trivial
  | .pass v, s => inferInstanceAs
      (Decidable (s.conn.buff.msglen = 0 ∧ 0 < s.conn.buff.rlen → v.toInt ≤ max))

/-! ## The invariant -/

/-- The bytes received are inside the buffer, and so is the message waited for. -/
def RoomInv (max : Int) (s : RoomSt Q) : Prop :=
  match s.phase with
  | .fresh => s.conn = recvInit
  | .idle => 0 ≤ s.conn.buff.rlen ∧ s.conn.buff.rlen < max ∧
      0 ≤ s.conn.buff.msglen ∧ s.conn.buff.msglen ≤ max
  | .framing _ => 0 < max ∧ 0 ≤ s.conn.buff.rlen ∧ s.conn.buff.rlen ≤ max ∧
      0 ≤ s.conn.buff.msglen ∧ s.conn.buff.msglen ≤ max
  | .closed => True
  | .caught => True

/-- The invariant says that there is room. -/
theorem RoomInv.hasRoom {max : Int} {s : RoomSt Q} (h : RoomInv max s) : HasRoom max s := by
  intro hphase
  unfold RoomInv at h
  rw [hphase] at h
  exact ⟨h.2.1, h.2.2.2⟩

/-- A read keeps the invariant, whatever arrives. -/
theorem roomRead_inv {max : Int} {mapped : Bool} {outs : List RecvRes} {s t : RoomSt Q}
    (hmax : 0 < max → 0 ≤ s.conn.buff.rlen ∧ s.conn.buff.rlen ≤ max ∧
      0 ≤ s.conn.buff.msglen ∧ s.conn.buff.msglen ≤ max)
    (hnull : ¬ 0 < max → s.conn.buff.rbf = .null)
    (h : roomRead max mapped outs s = some t) : RoomInv max t := by
  unfold roomRead at h
  cases hread : handleRead max (mapped && decide (0 < max)) s.conn outs with
  | error e =>
    rw [hread] at h
    cases h
  | ok out =>
    rcases out with ⟨r, c, rest⟩
    rw [hread] at h
    cases h
    by_cases hr : r = -1
    · simp only [hr, if_true]
      trivial
    simp only [hr, if_false]
    by_cases hpos : 0 < max
    · rcases hmax hpos with ⟨h0, hle, hlo, hhi⟩
      rcases handleRead_bounds h0 hle hread with ⟨hr0, hrle, hmsg⟩
      refine ⟨hpos, hr0, hrle, ?_⟩
      simp only
      rcases hmsg with hmsg | hmsg
      · rw [hmsg]
        exact ⟨hlo, hhi⟩
      · rw [hmsg]
        exact ⟨Int.le_refl 0, Int.le_of_lt hpos⟩
    · -- nothing is mapped
      rcases handleRead_cases hread with
        ⟨_, ⟨_, hfail, _⟩ | ⟨hmapped, _⟩⟩ | ⟨hfailed, _⟩ | ⟨mem, hmem, _⟩
      · exact absurd hfail hr
      · simp [hpos] at hmapped
      · rw [hnull hpos] at hfailed
        cases hfailed
      · rw [hnull hpos] at hmem
        cases hmem

/-- A pass keeps it if the length it asks for fits; if not, the handler returns `0` and
waits for a message that does not fit. -/
theorem roomPass_cases {pass : PassFn Q} (hcuts : Cuts pass) {max : Int} {v : Int32} {tmp : Int}
    {s : RoomSt Q} (hinv : RoomInv max s) (hphase : s.phase = .framing tmp)
    (hv : 0 < v.toInt) :
    AnnouncesFit max (.pass v) s ∧ RoomInv max (roomPass pass v tmp s) ∨
      ¬ AnnouncesFit max (.pass v) s ∧ ¬ HasRoom max (roomPass pass v tmp s) := by
  unfold RoomInv at hinv
  rw [hphase] at hinv
  rcases hinv with ⟨hpos, h0, hle, hlo, hhi⟩
  have hcut := hcuts v s.conn.buff tmp s.tally
  unfold roomPass
  by_cases hfit : AnnouncesFit max (.pass v) s
  · refine Or.inl ⟨hfit, ?_⟩
    have hlen : 0 ≤ lenOf v s.conn.buff ∧ lenOf v s.conn.buff ≤ max := by
      unfold lenOf
      by_cases hask : s.conn.buff.msglen = 0 ∧ 0 < s.conn.buff.rlen
      · rw [if_pos hask]
        exact ⟨Int.le_of_lt hv, hfit hask⟩
      · rw [if_neg hask]
        exact ⟨hlo, hhi⟩
    have hleft : lenOf v s.conn.buff ≤ s.conn.buff.rlen →
        (s.conn.buff.ask v).consume.rlen = s.conn.buff.rlen - lenOf v s.conn.buff :=
      consume_rlen hlen.1
    rcases hcut with
      ⟨hshort, hpass⟩ | ⟨hlong, hpass | ⟨t', hpass, _⟩ | ⟨t', _, ⟨hmore, hpass⟩ | ⟨hend, hpass⟩⟩⟩
    · rw [hpass]
      simp only [RoomInv, keepRest_rlen, keepRest_msglen, ask_rlen, ask_msglen]
      omega
    · rw [hpass]
      trivial
    · rw [hpass]
      trivial
    · rw [hpass]
      rw [hleft hlong] at hmore
      simp only [RoomInv, hleft hlong, consume_msglen]
      omega
    · rw [hpass]
      rw [hleft hlong] at hend
      simp only [RoomInv, hleft hlong, consume_msglen]
      omega
  · refine Or.inr ⟨hfit, ?_⟩
    -- the length is asked for, and more than the buffer can hold
    have hask : s.conn.buff.msglen = 0 ∧ 0 < s.conn.buff.rlen := by
      by_contra hno
      exact hfit fun hask => absurd hask hno
    have hbig : max < v.toInt := by
      by_contra hno
      exact hfit fun _ => by omega
    have hlen : lenOf v s.conn.buff = v.toInt := if_pos hask
    rcases hcut with ⟨_, hpass⟩ | ⟨hlong, _⟩
    · rw [hpass]
      intro hroom
      have hmsg := (hroom rfl).2
      simp only [keepRest_msglen, ask_msglen, hlen] at hmsg
      omega
    · omega

/-- **A read or a pass**, on either side of the condition. -/
theorem roomStep_cases {pass : PassFn Q} (hcuts : Cuts pass) {max : Int} {l : FrameLbl}
    {s t : RoomSt Q} (hinv : RoomInv max s) (h : roomStep pass max l s = some t) :
    AnnouncesFit max l s ∧ RoomInv max t ∨ ¬ AnnouncesFit max l s ∧ ¬ HasRoom max t := by
  cases l with
  | read mapped outs =>
    refine Or.inl ⟨trivial, ?_⟩
    unfold roomStep at h
    unfold RoomInv at hinv
    cases hphase : s.phase with
    | fresh =>
      simp only [hphase] at h hinv
      refine roomRead_inv (fun hpos => ?_) (fun _ => by rw [hinv]; rfl) h
      rw [hinv]
      exact ⟨Int.le_refl 0, Int.le_of_lt hpos, Int.le_refl 0, Int.le_of_lt hpos⟩
    | idle =>
      simp only [hphase] at h hinv
      rcases hinv with ⟨h0, hlt, hlo, hhi⟩
      exact roomRead_inv (fun _ => ⟨h0, Int.le_of_lt hlt, hlo, hhi⟩) (fun hno => by omega) h
    | framing tmp | closed | caught =>
      simp only [hphase] at h
      cases h
  | pass v =>
    unfold roomStep at h
    cases hphase : s.phase with
    | framing tmp =>
      simp only [hphase] at h
      by_cases hv : 0 < v.toInt
      · rw [if_pos hv] at h
        cases h
        exact roomPass_cases hcuts hinv hphase hv
      · rw [if_neg hv] at h
        cases h
    | fresh | idle | closed | caught =>
      simp only [hphase] at h
      cases h

/-! ## A wedged connection -/

/-- The buffer is full, with less than the message that is waited for. -/
structure Wedged (max : Int) (s : RoomSt Q) : Prop where
  phase : s.phase = .idle ∨ s.phase = .framing 0
  mapped : ∃ mem, s.conn.buff.rbf = .mapped mem
  full : s.conn.buff.rlen = max
  long : 0 < max ∧ max < s.conn.buff.msglen

/-- A read finds no room, and says so with `0`. -/
theorem Wedged.read {max : Int} {mapped : Bool} {outs : List RecvRes} {s t : RoomSt Q}
    (hw : Wedged max s) (h : roomRead max mapped outs s = some t) : Wedged max t := by
  rcases hw.mapped with ⟨mem, hmem⟩
  have hread : handleRead max (mapped && decide (0 < max)) s.conn outs = .ok (0, s.conn, outs) := by
    unfold handleRead
    rw [hmem]
    exact if_pos (Int.le_of_eq hw.full.symm)
  unfold roomRead at h
  rw [hread] at h
  cases h
  exact ⟨Or.inr rfl, hw.mapped, hw.full, hw.long⟩

/-- A pass finds the message incomplete. -/
theorem Wedged.pass {pass : PassFn Q} (hcuts : Cuts pass) {max : Int} (v : Int32) {s : RoomSt Q}
    (hw : Wedged max s) : Wedged max (roomPass pass v 0 s) := by
  have hlong := hw.long
  have hlen : lenOf v s.conn.buff = s.conn.buff.msglen := if_neg fun hask => by omega
  have hfull := hw.full
  rcases hcuts v s.conn.buff 0 s.tally with ⟨_, hpass⟩ | ⟨hle, _⟩
  swap
  · omega
  have hsame : keepRest (s.conn.buff.ask v) 0 = s.conn.buff.ask v := if_neg fun hmove => hmove.1 rfl
  unfold roomPass
  rw [hpass, hsame]
  refine ⟨Or.inl rfl, hw.mapped, hw.full, hlong.1, ?_⟩
  simp only [ask_msglen, hlen]
  exact hlong.2

/-- **A wedged connection stays open and full**, whatever its peer sends. -/
theorem Wedged.stays {pass : PassFn Q} (hcuts : Cuts pass) {max : Int} {ls : List FrameLbl}
    {s t : RoomSt Q} (hw : Wedged max s) (hrun : exec (roomStep pass max) ls s = some t) :
    Wedged max t := by
  refine exec_invariant' (Wedged max) (fun l s t hw h => ?_) hw hrun
  cases l with
  | read mapped outs =>
    unfold roomStep at h
    rcases hw.phase with hphase | hphase
    · simp only [hphase] at h
      exact hw.read h
    · simp only [hphase] at h
      cases h
  | pass v =>
    unfold roomStep at h
    rcases hw.phase with hphase | hphase
    · simp only [hphase] at h
      cases h
    · simp only [hphase] at h
      by_cases hv : 0 < v.toInt
      · rw [if_pos hv] at h
        cases h
        exact hw.pass hcuts v
      · rw [if_neg hv] at h
        cases h

/-- Such a connection has no room when its handler has returned. -/
theorem Wedged.no_room {max : Int} {s : RoomSt Q} (hw : Wedged max s) (hidle : s.phase = .idle) :
    ¬ HasRoom max s := by
  intro hroom
  have hlt := (hroom hidle).1
  have hfull := hw.full
  omega

/-! ## Both handlers -/

/-- A handler leaves room in every run that announces what fits, and in no other. -/
theorem hasRoom_iff {pass : PassFn Q} (hcuts : Cuts pass) (max : Int) (q : Q)
    (ls : List FrameLbl) :
    Throughout (roomStep pass max) (HasRoom max) ls (roomInit q) ↔
      Along (roomStep pass max) (AnnouncesFit max) ls (roomInit q) :=
  throughout_iff_along (RoomInv max) (fun _ => RoomInv.hasRoom)
    (fun _ _ _ hinv h => roomStep_cases hcuts hinv h) rfl

/-- **No connection wedges** exactly when nothing too long is announced: in every run of
reads and passes from a fresh connection, with any positive answers of `get_msg_len`,
`handle_cli` and `do_proc_svr` return `0` only with room in the buffer and with a message
to wait for that fits, if and only if no length asked for exceeds `max_buf_len`. -/
theorem leaves_room_iff (push : Push Q) (proc : Proc W) (max : Int) (fd idx : Int32) (q : Q) (w : W)
    (ls : List FrameLbl) :
    (Throughout (roomStep (framePass (tallying push) fd idx) max) (HasRoom max) ls (roomInit q) ↔
      Along (roomStep (framePass (tallying push) fd idx) max) (AnnouncesFit max) ls
        (roomInit q)) ∧
    (Throughout (roomStep (svrPass (tallyingProc proc) fd) max) (HasRoom max) ls (roomInit w) ↔
      Along (roomStep (svrPass (tallyingProc proc) fd) max) (AnnouncesFit max) ls
        (roomInit w)) :=
  ⟨hasRoom_iff (framePass_cuts push fd idx) max q ls, hasRoom_iff (svrPass_cuts proc fd) max w ls⟩

/-- Five bytes are announced to a buffer of four. -/
def tooLong : List FrameLbl := [.read true [.data [5, 0, 0, 0], .eagain], .pass 5]

/-- What the read leaves: a full buffer. -/
def filled (q : Q) : RoomSt Q :=
  { conn :=
      { buff :=
          { emptyBuff with
            rlen := 4, rbf := .mapped (memcpy (fun _ => 0) 0 (ofBytes [5, 0, 0, 0]) 4) }
        readlist := true }
    phase := .framing 0
    tally := { q := q, sent := [], refused := false } }

/-- The run wedges the handler, whichever it is. -/
theorem tooLong_wedged {pass : PassFn Q} (hcuts : Cuts pass) (q : Q) :
    ∃ s, exec (roomStep pass 4) tooLong (roomInit q) = some s ∧ s.phase = .idle ∧ Wedged 4 s := by
  have hread : roomStep pass 4 (.read true [.data [5, 0, 0, 0], .eagain]) (roomInit q) =
      some (filled q) := rfl
  have hlen : lenOf 5 (filled q).conn.buff = 5 := rfl
  -- the pass waits for the fifth byte
  have hpass : pass 5 (filled q).conn.buff 0 (filled q).tally =
      .done ((filled q).conn.buff.ask 5) (filled q).tally := by
    rcases hcuts 5 (filled q).conn.buff 0 (filled q).tally with ⟨_, hpass⟩ | ⟨hle, _⟩
    · exact hpass
    · have hfour : (filled q).conn.buff.rlen = 4 := rfl
      omega
  have hstep : roomStep pass 4 (.pass 5) (filled q) = some (roomPass pass 5 0 (filled q)) := rfl
  refine ⟨roomPass pass 5 0 (filled q), ?_, ?_⟩
  · rw [tooLong, exec_cons, hread, Option.bind_some, exec_cons, hstep]
    rfl
  · unfold roomPass
    rw [hpass]
    refine ⟨rfl, Or.inl rfl, ⟨_, rfl⟩, rfl, by decide, ?_⟩
    simp only [ask_msglen, hlen]
    decide

/-- Both handlers return `0` with a full buffer, and the connection is never closed. -/
theorem tooLong_wedges :
    (∃ s, exec (roomStep (framePass (tallying mqPush) 7 0) 4) tooLong (roomInit (mqInit 128)) =
        some s ∧ ¬ HasRoom 4 s ∧ ∀ ls t,
          exec (roomStep (framePass (tallying mqPush) 7 0) 4) ls s = some t → t.phase ≠ .closed) ∧
      ∃ s, exec (roomStep (svrPass (tallyingProc countProc) 7) 4) tooLong (roomInit 0) =
        some s ∧ ¬ HasRoom 4 s ∧ ∀ ls t,
          exec (roomStep (svrPass (tallyingProc countProc) 7) 4) ls s = some t →
            t.phase ≠ .closed := by
  have hopen : ∀ {Q : Type} {s : RoomSt Q}, Wedged 4 s → s.phase ≠ .closed := by
    intro Q s hw hclosed
    rcases hw.phase with hphase | hphase
    · cases hphase.symm.trans hclosed
    · cases hphase.symm.trans hclosed
  constructor
  · have hcuts := framePass_cuts mqPush 7 0
    rcases tooLong_wedged hcuts (mqInit 128) with ⟨s, hrun, hidle, hw⟩
    exact ⟨s, hrun, hw.no_room hidle, fun ls t ht => hopen (hw.stays hcuts ht)⟩
  · have hcuts := svrPass_cuts countProc 7
    rcases tooLong_wedged hcuts 0 with ⟨s, hrun, hidle, hw⟩
    exact ⟨s, hrun, hw.no_room hidle, fun ls t ht => hopen (hw.stays hcuts ht)⟩

end SServer.Net
