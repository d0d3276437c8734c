import SServer.Lib.Loop
import SServer.Net.Shutdown

/-!
# SServer.Net.Passes — what the backward jumps of both handlers use up

`handle_cli` and `do_proc_svr` jump back to their label as long as bytes are left,
and go by a length that nothing checks. A pass is one turn of a loop of
`SServer.Lib.Loop`; `get_msg_len` may answer anything, and something else each time.

The result: a call returns after at most as many deliveries as it had bytes, each of
which takes a byte at least, exactly when no length it goes by is zero or negative
(and, in the master, no push is caught).

* `framePass_cuts`, `svrPass_cuts`: a pass of either handler stops, waits, or takes as many
  bytes as the length it goes by.
* `prompt_iff`: a call is prompt exactly when all its passes are in order.
* `calls_prompt_iff`: the result, for a buffer whose lengths are ints and any answers.
* `fourZeros_not_prompt`: four zero bytes: a worker never returns, and the master pushes empty
  messages as long as the queue takes them.

The bound is on deliveries, not on time: a callback of the loaded object may take as long as it
likes.
-/

namespace SServer.Net

open SServer.Lib SServer.Queue

variable {Q W : Type}

/-! ## The loops -/

/-- A call at its label: `tmp` is the offset of `tmp_ptr` in `rbf`. -/
structure AtLabel (Q : Type) where
  buff : FdBuff
  tmp : Int
  tally : Tally Q

/-- How a call leaves its loop: it returns, or is caught in an `mq_push` that does not. -/
inductive Left (Q : Type) where
  | returned (r : Int) (buff : FdBuff) (tally : Tally Q)
  | caught

/-- A pass of a handler. -/
abbrev PassFn (Q : Type) := Int32 → FdBuff → Int → Tally Q → Pass (Tally Q)

/-- A pass as a turn of the loop. -/
def passTurn (pass : PassFn Q) (v : Int32) (s : AtLabel Q) : Turn (AtLabel Q) (Left Q) :=
  match pass v s.buff s.tmp s.tally with
  | .again buff tmp tally => .again ⟨buff, tmp, tally⟩
  | .done buff tally => .stop (.returned 0 buff tally)
  | .failed buff tally => .stop (.returned (-1) buff tally)
  | .crashed => .stop .caught

/-- What `get_msg_len` answers in pass `n`, if it is asked there. -/
abbrev Asked (Q : Type) := Nat → AtLabel Q → Int32

/-- A call after `n` passes. -/
def calls (pass : PassFn Q) (ask : Asked Q) (s : AtLabel Q) (n : Nat) :
    Turn (AtLabel Q) (Left Q) :=
  turns (fun n s => passTurn pass (ask n s) s) s n

/-- The loop bounded by a count of passes is this one. -/
theorem passLoop_eq_turns (pass : PassFn Q) (get : Mem → Int → Int32) :
    ∀ (n k : Nat) (s m : AtLabel Q),
      calls pass (fun _ s => get (s.buff.rbf.mem.ptr s.tmp) s.buff.rlen) s k = .again m →
      ∀ {r : Int} {buff : FdBuff} {tally : Tally Q},
        passLoop pass get n m.buff m.tmp m.tally = some (r, buff, tally) ↔
          calls pass (fun _ s => get (s.buff.rbf.mem.ptr s.tmp) s.buff.rlen) s (k + n) =
            .stop (.returned r buff tally) := by
  intro n
  induction n with
  | zero =>
    intro k s m hm r buff tally
    rw [Nat.add_zero, hm]
    exact ⟨(nomatch ·), (nomatch ·)⟩
  | succ n ih =>
    intro k s m hm r buff tally
    -- the first pass of the loop is the next turn
    have hnext : calls pass (fun _ s => get (s.buff.rbf.mem.ptr s.tmp) s.buff.rlen) s (k + 1) =
        passTurn pass (get (m.buff.rbf.mem.ptr m.tmp) m.buff.rlen) m := turns_succ_again hm
    have hsum : k + (n + 1) = k + 1 + n := by omega
    rw [hsum]
    unfold passLoop
    unfold passTurn at hnext
    cases hpass : pass (get (m.buff.rbf.mem.ptr m.tmp) m.buff.rlen) m.buff m.tmp m.tally with
    | again buff' tmp' tally' =>
      rw [hpass] at hnext
      exact ih (k + 1) s ⟨buff', tmp', tally'⟩ hnext
    | done buff' tally' =>
      rw [hpass] at hnext
      rw [calls, turns_stop_le hnext (Nat.le_add_right _ _)]
      simp
    | failed buff' tally' =>
      rw [hpass] at hnext
      rw [calls, turns_stop_le hnext (Nat.le_add_right _ _)]
      simp
    | crashed =>
      rw [hpass] at hnext
      rw [calls, turns_stop_le hnext (Nat.le_add_right _ _)]
      simp

/-! ## What a pass can do -/

/-- A pass waits for the rest of a message, or finds one complete; then it is caught,
is refused, or delivers it and goes on behind it if there is more. -/
def Cuts (pass : PassFn Q) : Prop := ∀ v buff tmp t,
  buff.rlen < lenOf v buff ∧ pass v buff tmp t = .done (keepRest (buff.ask v) tmp) t ∨
    lenOf v buff ≤ buff.rlen ∧
      (pass v buff tmp t = .crashed ∨
        (∃ t', pass v buff tmp t = .failed (buff.ask v) t' ∧ t'.sent = t.sent) ∨
        ∃ t', t'.sent.length = t.sent.length + 1 ∧
          (0 < (buff.ask v).consume.rlen ∧
              pass v buff tmp t = .again (buff.ask v).consume (tmp + lenOf v buff) t' ∨
            (buff.ask v).consume.rlen ≤ 0 ∧ pass v buff tmp t = .done (buff.ask v).consume t'))

/-- A pass of the master is a cut. -/
theorem framePass_cuts (push : Push Q) (fd idx : Int32) :
    Cuts (framePass (tallying push) fd idx) := by
  intro v buff tmp t
  rcases framePass_cases (tallying push) fd idx v buff tmp t with
    hwait | ⟨hle, ⟨_, hpass⟩ | ⟨r, t', hsome, hr, hpass⟩ | ⟨t', hsome, hpass⟩⟩
  · exact Or.inl hwait
  · exact Or.inr ⟨hle, Or.inl hpass⟩
  · rcases Option.map_eq_some_iff.mp hsome with ⟨⟨r', q⟩, _, heq⟩
    cases heq
    refine Or.inr ⟨hle, Or.inr (Or.inl ⟨_, hpass, ?_⟩)⟩
    simp only [hr, if_false]
  · rcases Option.map_eq_some_iff.mp hsome with ⟨⟨r', q⟩, _, heq⟩
    cases heq
    refine Or.inr ⟨hle, Or.inr (Or.inr ⟨_, ?_, hpass⟩)⟩
    simp

/-- So is one of a worker. -/
theorem svrPass_cuts (proc : Proc W) (fd : Int32) : Cuts (svrPass (tallyingProc proc) fd) := by
  intro v buff tmp t
  rcases svrPass_cases (tallyingProc proc) fd v buff tmp t with hwait | ⟨hle, hpass⟩
  · exact Or.inl hwait
  · exact Or.inr ⟨hle, Or.inr (Or.inr ⟨_, by simp [tallyingProc], hpass⟩)⟩

/-! ## Bytes used up -/

/-- A message that the pass delivers has taken a byte at least, of those there were. -/
def TakesByte (pass : PassFn Q) (v : Int32) (s : AtLabel Q) : Prop :=
  (pass v s.buff s.tmp s.tally).Leaves fun buff t =>
    s.tally.sent.length < t.sent.length → 0 ≤ buff.rlen ∧ buff.rlen < s.buff.rlen

/-- The call returns, after at most as many deliveries as there were bytes at its entry,
and each delivery has taken a byte. -/
def Prompt (pass : PassFn Q) (ask : Asked Q) (s : AtLabel Q) : Prop :=
  (∃ n r buff t, calls pass ask s n = .stop (.returned r buff t) ∧
    (n : Int) ≤ s.buff.rlen + 1 ∧ (t.sent.length : Int) ≤ s.tally.sent.length + s.buff.rlen) ∧
  ∀ n m, calls pass ask s n = .again m → TakesByte pass (ask n m) m

/-- The pass is not caught, and what it delivers has a positive length. -/
def TurnOk (pass : PassFn Q) (v : Int32) (s : AtLabel Q) : Prop :=
  pass v s.buff s.tmp s.tally ≠ .crashed ∧
    (pass v s.buff s.tmp s.tally).Leaves fun _ t =>
      s.tally.sent.length < t.sent.length → 0 < lenOf v s.buff

/-- A call at its label has the bytes that it has not consumed, and its lengths are ints. -/
def Holds (s : AtLabel Q) : Prop := 0 ≤ s.buff.rlen ∧ s.buff.Ints

/-- What a call holds at its label stays inside the ints. -/
theorem calls_holds {pass : PassFn Q} (hcuts : Cuts pass) {ask : Asked Q} {s m : AtLabel Q}
    {n : Nat} (hs : Holds s) (hm : calls pass ask s n = .again m) : Holds m := by
  refine turns_invariant Holds hs (fun n m m' _ hI hbody => ?_) hm
  unfold passTurn at hbody
  rcases hcuts (ask n m) m.buff m.tmp m.tally with
    ⟨_, hpass⟩ | ⟨_, hpass | ⟨t', hpass, _⟩ | ⟨t', _, ⟨hmore, hpass⟩ | ⟨_, hpass⟩⟩⟩
  all_goals
    rw [hpass] at hbody
    cases hbody
  exact ⟨Int.le_of_lt hmore, hI.2.consume _⟩

/-- A pass is in order when it is not caught and takes a byte. -/
theorem turnOk_iff {pass : PassFn Q} (hcuts : Cuts pass) (v : Int32) {s : AtLabel Q}
    (hs : Holds s) :
    TurnOk pass v s ↔ pass v s.buff s.tmp s.tally ≠ .crashed ∧ TakesByte pass v s := by
  unfold TurnOk TakesByte
  refine and_congr_right fun _ => ?_
  rcases hcuts v s.buff s.tmp s.tally with
    ⟨_, hpass⟩ | ⟨hle, hpass | ⟨t', hpass, hsent⟩ | ⟨t', hsent, ⟨_, hpass⟩ | ⟨_, hpass⟩⟩⟩
  · rw [hpass]
    simp [Pass.Leaves]
  · rw [hpass]
    simp [Pass.Leaves]
  · rw [hpass]
    simp [Pass.Leaves, hsent]
  · rw [hpass]
    simp [Pass.Leaves, hsent, consume_less_iff hs.2 hs.1 hle]
  · rw [hpass]
    simp [Pass.Leaves, hsent, consume_less_iff hs.2 hs.1 hle]

/-- A pass that is in order and jumps back has used up a byte for each delivery. -/
theorem TurnOk.again {pass : PassFn Q} (hcuts : Cuts pass) {v : Int32} {s m : AtLabel Q}
    (hs : Holds s) (hok : TurnOk pass v s) (h : passTurn pass v s = .again m) :
    0 < m.buff.rlen ∧ m.buff.rlen < s.buff.rlen ∧
      m.tally.sent.length = s.tally.sent.length + 1 := by
  have htakes := ((turnOk_iff hcuts v hs).mp hok).2
  unfold TakesByte at htakes
  unfold passTurn at h
  rcases hcuts v s.buff s.tmp s.tally with
    ⟨_, hpass⟩ | ⟨_, hpass | ⟨t', hpass, _⟩ | ⟨t', hsent, ⟨hmore, hpass⟩ | ⟨_, hpass⟩⟩⟩
  all_goals
    rw [hpass] at h htakes
    cases h
  exact ⟨hmore, (htakes (by omega)).2, hsent⟩

/-- One that leaves the loop returns, and has not delivered more than was there. -/
theorem TurnOk.stop {pass : PassFn Q} (hcuts : Cuts pass) {v : Int32} {s : AtLabel Q}
    {o : Left Q} (h0 : 0 ≤ s.buff.rlen) (hok : TurnOk pass v s)
    (h : passTurn pass v s = .stop o) :
    ∃ r buff t, o = .returned r buff t ∧
      (t.sent.length : Int) ≤ s.tally.sent.length + s.buff.rlen := by
  rcases hok with ⟨hno, hpos⟩
  unfold passTurn at h
  rcases hcuts v s.buff s.tmp s.tally with
    ⟨_, hpass⟩ | ⟨hle, hpass | ⟨t', hpass, hsent⟩ | ⟨t', hsent, ⟨_, hpass⟩ | ⟨_, hpass⟩⟩⟩
  · rw [hpass] at h
    cases h
    exact ⟨_, _, _, rfl, by omega⟩
  · exact absurd hpass hno
  · rw [hpass] at h
    cases h
    exact ⟨_, _, _, rfl, by rw [hsent]; omega⟩
  · rw [hpass] at h
    cases h
  · rw [hpass] at h hpos
    cases h
    have hlen : 0 < lenOf v s.buff := hpos (by omega)
    exact ⟨_, _, _, rfl, by rw [hsent]; omega⟩

/-- **A call is prompt exactly when all its passes are in order.** -/
theorem prompt_iff {pass : PassFn Q} (hcuts : Cuts pass) (ask : Asked Q) {s : AtLabel Q}
    (hs : Holds s) :
    Prompt pass ask s ↔ ∀ n m, calls pass ask s n = .again m → TurnOk pass (ask n m) m := by
  constructor
  · rintro ⟨⟨k, r, buff, t, hret, _, _⟩, htakes⟩ n m hm
    refine (turnOk_iff hcuts _ (calls_holds hcuts hs hm)).mpr ⟨fun hcrash => ?_, htakes n m hm⟩
    -- a call that is caught never returns
    have hcaught : calls pass ask s (n + 1) = .stop .caught := by
      rw [calls, turns_succ_again hm, passTurn, hcrash]
    cases turns_stop_unique hret hcaught
  · intro hok
    refine ⟨?_, fun n m hm =>
      ((turnOk_iff hcuts _ (calls_holds hcuts hs hm)).mp (hok n m hm)).2⟩
    have hinv : ∀ n m, calls pass ask s n = .again m →
        (m.tally.sent.length : Int) + m.buff.rlen ≤ s.tally.sent.length + s.buff.rlen := by
      intro n m hm
      refine turns_invariant (fun m => (m.tally.sent.length : Int)
        + m.buff.rlen ≤ s.tally.sent.length + s.buff.rlen) (Int.le_refl _) ?_ hm
      intro n m m' hm hI hbody
      rcases (hok n m hm).again hcuts (calls_holds hcuts hs hm) hbody with ⟨_, hless, hsent⟩
      omega
    have hleaves : ∃ n o, n ≤ s.buff.rlen.toNat + 1 ∧ calls pass ask s n = .stop o := by
      refine turns_leaves (fun m : AtLabel Q => m.buff.rlen.toNat) fun n m m' hm hbody => ?_
      rcases (hok n m hm).again hcuts (calls_holds hcuts hs hm) hbody with ⟨hpos, hless, _⟩
      omega
    rcases hleaves with ⟨n, o, hn, hstop⟩
    rcases turns_last hstop with ⟨k, m, _, hm, hbody⟩
    have hcount := hinv k m hm
    have h0 := hs.1
    rcases (hok k m hm).stop hcuts (calls_holds hcuts hs hm).1 hbody with ⟨r, buff, t, rfl, hsent⟩
    exact ⟨n, r, buff, t, hstop, by omega, by omega⟩

/-! ## Both handlers -/

/-- The condition on a pass of `do_proc_svr`: the length it goes by is positive. -/
def PositiveLen (v : Int32) (s : AtLabel Q) : Prop := 0 < lenOf v s.buff

/-- The condition on a pass of `handle_cli`: when it finds a message complete, `mq_push`
comes back, and has taken it only if the length is positive. -/
def PushedPositive (push : Push Q) (fd idx v : Int32) (s : AtLabel Q) : Prop :=
  lenOf v s.buff ≤ s.buff.rlen →
    ∃ r q, push s.tally.q (raw2blk fd idx (s.buff.ask v)) (s.buff.rbf.mem.ptr s.tmp) =
      some (r, q) ∧ (r = 0 → 0 < lenOf v s.buff)

/-- A pass of a worker is in order when its length is positive. -/
theorem svrPass_turnOk (proc : Proc W) (fd v : Int32) {s : AtLabel W} (h0 : 0 ≤ s.buff.rlen) :
    TurnOk (svrPass (tallyingProc proc) fd) v s ↔ PositiveLen v s := by
  unfold TurnOk PositiveLen
  rcases svrPass_cases (tallyingProc proc) fd v s.buff s.tmp s.tally with
    ⟨hshort, hpass⟩ | ⟨_, ⟨_, hpass⟩ | ⟨_, hpass⟩⟩
  · rw [hpass]
    exact ⟨fun _ => by omega, fun _ => ⟨by simp, by simp [Pass.Leaves]⟩⟩
  · rw [hpass]
    simp [Pass.Leaves, tallyingProc]
  · rw [hpass]
    simp [Pass.Leaves, tallyingProc]

/-- One of the master, when the push returns as well. -/
theorem framePass_turnOk (push : Push Q) (fd idx v : Int32) (s : AtLabel Q) :
    TurnOk (framePass (tallying push) fd idx) v s ↔ PushedPositive push fd idx v s := by
  have hcall : ∀ r t, tallying push s.tally (raw2blk fd idx (s.buff.ask v))
      (s.buff.rbf.mem.ptr s.tmp) = some (r, t) → ∃ q, push s.tally.q
        (raw2blk fd idx (s.buff.ask v)) (s.buff.rbf.mem.ptr s.tmp) = some (r, q) := by
    intro r t hsome
    rcases Option.map_eq_some_iff.mp hsome with ⟨⟨r', q⟩, hq, heq⟩
    cases heq
    exact ⟨q, hq⟩
  have hcuts := framePass_cuts push fd idx v s.buff s.tmp s.tally
  unfold TurnOk PushedPositive
  rcases framePass_cases (tallying push) fd idx v s.buff s.tmp s.tally with
    ⟨hshort, hpass⟩ | ⟨hle, ⟨hnone, hpass⟩ | ⟨r, t', hsome, hr, hpass⟩ | ⟨t', hsome, hpass⟩⟩
  · rw [hpass]
    refine ⟨fun _ hle => by omega, fun _ => ⟨by simp, by simp [Pass.Leaves]⟩⟩
  · rw [hpass]
    unfold tallying at hnone
    rw [Option.map_eq_none_iff] at hnone
    simp [hle, hnone]
  · -- a refused message is not delivered
    rcases hcall r t' hsome with ⟨q, hq⟩
    rcases hcuts with ⟨hshort, _⟩ | ⟨_, hc | ⟨t'', hc, hsent⟩ | ⟨t'', _, ⟨_, hc⟩ | ⟨_, hc⟩⟩⟩
    · omega
    all_goals cases hpass.symm.trans hc
    rw [hpass]
    simp [Pass.Leaves, hsent, hle, hq, hr]
  · rcases hcall 0 t' hsome with ⟨q, hq⟩
    have hsent : t'.sent.length = s.tally.sent.length + 1 := by
      rcases Option.map_eq_some_iff.mp hsome with ⟨⟨r', q'⟩, _, heq⟩
      cases heq
      simp
    rcases hpass with ⟨_, hpass⟩ | ⟨_, hpass⟩
    · rw [hpass]
      simp [Pass.Leaves, hsent, hle, hq]
    · rw [hpass]
      simp [Pass.Leaves, hsent, hle, hq]

/-- **Backward jumps end.** From any buffer whose lengths are ints, and whatever
`get_msg_len` answers: a call of `do_proc_svr` returns after at most as many deliveries as
it had bytes, each of which has taken a byte, if and only if every pass goes by a positive
length; a call of `handle_cli` does if and only if every `mq_push` comes back and takes
only messages of a positive length. -/
theorem calls_prompt_iff (push : Push Q) (proc : Proc W) (fd idx : Int32) (askCli : Asked Q)
    (askSvr : Asked W) {cli : AtLabel Q} {svr : AtLabel W} (hcli : Holds cli)
    (hsvr : Holds svr) :
    (Prompt (svrPass (tallyingProc proc) fd) askSvr svr ↔
      ∀ n m, calls (svrPass (tallyingProc proc) fd) askSvr svr n = .again m →
        PositiveLen (askSvr n m) m) ∧
    (Prompt (framePass (tallying push) fd idx) askCli cli ↔
      ∀ n m, calls (framePass (tallying push) fd idx) askCli cli n = .again m →
        PushedPositive push fd idx (askCli n m) m) := by
  constructor
  · rw [prompt_iff (svrPass_cuts proc fd) askSvr hsvr]
    refine forall_congr' fun n => forall_congr' fun m => forall_congr' fun hm => ?_
    exact svrPass_turnOk proc fd _ (calls_holds (svrPass_cuts proc fd) hsvr hm).1
  · rw [prompt_iff (framePass_cuts push fd idx) askCli hcli]
    refine forall_congr' fun n => forall_congr' fun m => forall_congr' fun _ => ?_
    exact framePass_turnOk push fd idx _ m

/-- So the bounded loop of `handlerOf`, which may end without a result, has one for a call
that is prompt. -/
theorem Prompt.returns {pass : PassFn Q} {get : Mem → Int → Int32} {s : AtLabel Q}
    (h : Prompt pass (fun _ s => get (s.buff.rbf.mem.ptr s.tmp) s.buff.rlen) s) :
    ∃ r buff t, passLoop pass get (passBound s.buff) s.buff s.tmp s.tally =
      some (r, buff, t) := by
  obtain ⟨⟨n, r, buff, t, hstop, hn, _⟩, _⟩ := h
  refine ⟨r, buff, t, (passLoop_eq_turns pass get _ 0 s s rfl).mpr ?_⟩
  apply turns_stop_le hstop
  have hbound := rlen_lt_passBound s.buff
  omega

/-- On a ring that is in order, a positive length that leaves room for the block header
in an int is enough. -/
theorem pushedPositive_ring (fd idx : Int32) {v : Int32} {s : AtLabel Ring}
    (hpos : 0 < lenOf v s.buff) (hfits : lenOf v s.buff + blkHeadLen < 2 ^ 31) :
    PushedPositive ringPush fd idx v s := by
  intro _
  have hlen : (raw2blk fd idx (s.buff.ask v)).len.toInt = lenOf v s.buff + blkHeadLen :=
    raw2blk_len_good fd idx (Int.le_of_lt hpos) hfits
  have hret := ringPush_returns s.tally.q (b := raw2blk fd idx (s.buff.ask v))
    ⟨by omega, by simp [raw2blk, MemBlockType.code]⟩ (s.buff.rbf.mem.ptr s.tmp)
  rcases Option.ne_none_iff_exists'.mp hret with ⟨⟨r, q⟩, hq⟩
  exact ⟨r, q, hq, fun _ => hpos⟩

/-- A call that has received the bytes `bs`. -/
def entered (bs : List UInt8) (q : Q) : AtLabel Q :=
  { buff := { emptyBuff with rlen := bs.length, rbf := .mapped (ofBytes bs) }
    tmp := 0
    tally := { q := q, sent := [], refused := false } }

/-- What the tests' `get_msg_len` answers. -/
def askHeader : Asked Q := fun _ s => getMsgLen (s.buff.rbf.mem.ptr s.tmp) s.buff.rlen

/-- `proc_serv_msg` of a worker that only counts. -/
def countProc : Proc Nat := fun n _ _ _ => n + 1

/-- A call entered with some bytes. -/
theorem entered_holds (bs : List UInt8) (hlen : bs.length < 2 ^ 31) (q : Q) :
    Holds (entered bs q) := by
  refine ⟨Int.natCast_nonneg bs.length, ⟨?_, ?_⟩, by simp [entered, emptyBuff]⟩
  · exact Int.le_trans (by decide) (Int.natCast_nonneg bs.length)
  · show (bs.length : Int) < 2 ^ 31
    omega

/-- A call whose first pass leaves nothing is at its label once. -/
theorem calls_once {pass : PassFn Q} (hcuts : Cuts pass) {ask : Asked Q} {s m : AtLabel Q} {n : Nat}
    (hend : (s.buff.ask (ask 0 s)).consume.rlen ≤ 0) (hm : calls pass ask s n = .again m) :
    n = 0 ∧ m = s := by
  have hstop : ∃ o, calls pass ask s 1 = .stop o := by
    show ∃ o, passTurn pass (ask 0 s) s = .stop o
    unfold passTurn
    rcases hcuts (ask 0 s) s.buff s.tmp s.tally with
      ⟨_, hpass⟩ | ⟨_, hpass | ⟨t', hpass, _⟩ | ⟨t', _, ⟨hmore, _⟩ | ⟨_, hpass⟩⟩⟩
    · exact ⟨_, by rw [hpass]⟩
    · exact ⟨_, by rw [hpass]⟩
    · exact ⟨_, by rw [hpass]⟩
    · omega
    · exact ⟨_, by rw [hpass]⟩
  rcases hstop with ⟨o, hstop⟩
  cases n with
  | zero =>
    cases hm
    exact ⟨rfl, rfl⟩
  | succ n => cases (turns_stop_le hstop (by omega)).symm.trans hm

/-- One message of five bytes, in a worker and in the master. -/
theorem calls_prompt_iff_oneMessage :
    Prompt (svrPass (tallyingProc countProc) 7) askHeader (entered [5, 0, 0, 0, 65] 0) ∧
      Prompt (framePass (tallying ringPush) 7 0) askHeader
        (entered [5, 0, 0, 0, 65] (ringInit 128 (by decide))) := by
  have hiff := calls_prompt_iff ringPush countProc 7 0 askHeader askHeader
    (entered_holds [5, 0, 0, 0, 65] (by decide) (ringInit 128 (by decide)))
    (entered_holds [5, 0, 0, 0, 65] (by decide) 0)
  constructor
  · refine hiff.1.mpr fun n m hm => ?_
    rcases calls_once (svrPass_cuts countProc 7) (by decide +kernel) hm with ⟨rfl, rfl⟩
    show 0 < lenOf _ _
    decide +kernel
  · refine hiff.2.mpr fun n m hm => ?_
    rcases calls_once (framePass_cuts ringPush 7 0) (by decide +kernel) hm with ⟨rfl, rfl⟩
    exact pushedPositive_ring 7 0 (by decide +kernel) (by decide +kernel)

/-- Four zero bytes, read as a length. -/
def fourZeros : List UInt8 := [0, 0, 0, 0]

/-- A pass that goes by the length zero consumes nothing and jumps back. -/
theorem svrPass_zero (proc : Proc W) (fd : Int32) {v : Int32} {buff : FdBuff}
    (hlen : lenOf v buff = 0) (hrlen : 0 < buff.rlen) (tmp : Int) (t : Tally W) :
    ∃ t', svrPass (tallyingProc proc) fd v buff tmp t = .again (buff.ask v).consume tmp t' := by
  rcases svrPass_cases (tallyingProc proc) fd v buff tmp t with
    ⟨hshort, _⟩ | ⟨hle, ⟨_, hpass⟩ | ⟨hend, _⟩⟩
  · omega
  · rw [hlen, Int.add_zero] at hpass
    exact ⟨_, hpass⟩
  · rw [consume_rlen (by omega) hle] at hend
    omega

/-- A worker that has got four zero bytes from its server hands `proc_serv_msg` empty
messages for ever. -/
theorem fourZeros_stays (n : Nat) : ∃ m : AtLabel Nat,
    calls (svrPass (tallyingProc countProc) 7) askHeader (entered fourZeros 0) n = .again m ∧
      m.buff.rlen = 4 ∧ m.buff.msglen = 0 ∧ m.tmp = 0 ∧
      m.buff.rbf = .mapped (ofBytes fourZeros) := by
  induction n with
  | zero => exact ⟨_, rfl, rfl, rfl, rfl, rfl⟩
  | succ n ih =>
    rcases ih with ⟨m, hm, hrlen, hmsg, htmp, hrbf⟩
    have hlen : lenOf (askHeader n m) m.buff = 0 := by
      unfold lenOf askHeader
      rw [if_pos ⟨hmsg, by omega⟩, htmp, hrbf, hrlen]
      decide +kernel
    rcases svrPass_zero countProc 7 hlen (by omega) m.tmp m.tally with ⟨t', hpass⟩
    refine ⟨⟨(m.buff.ask (askHeader n m)).consume, m.tmp, t'⟩, ?_, ?_, rfl, htmp, hrbf⟩
    · rw [calls, turns_succ_again hm, passTurn, hpass]
    · rw [consume_rlen (by omega) (by omega), hlen, hrlen]
      rfl

/-- The master with four zero bytes from a client. -/
def masterZeros : AtLabel MemQueue := entered fourZeros (mqInit 128)

/-- The worker never returns, and the master pushes empty messages as long as the queue
takes them. -/
theorem fourZeros_not_prompt :
    (∀ n, ∃ m, calls (svrPass (tallyingProc countProc) 7) askHeader (entered fourZeros 0) n =
      .again m) ∧
    ¬ Prompt (svrPass (tallyingProc countProc) 7) askHeader (entered fourZeros 0) ∧
    ¬ Prompt (framePass (tallying mqPush) 7 0) askHeader masterZeros := by
  have hstays : ∀ n, ∃ m, calls (svrPass (tallyingProc countProc) 7) askHeader
      (entered fourZeros 0) n = .again m := by
    intro n
    rcases fourZeros_stays n with ⟨m, hm, _⟩
    exact ⟨m, hm⟩
  refine ⟨hstays, fun hprompt => ?_, fun hprompt => ?_⟩
  · rcases hprompt.1 with ⟨n, r, buff, t, hret, _⟩
    rcases hstays n with ⟨m, hm⟩
    cases hret.symm.trans hm
  · have hholds : Holds masterZeros := entered_holds fourZeros (by decide) (mqInit 128)
    have hturns := (prompt_iff (framePass_cuts mqPush 7 0) askHeader hholds).mp hprompt
    have hpushed := (framePass_turnOk mqPush 7 0 _ _).mp (hturns 0 _ rfl)
    have hlen : lenOf (askHeader 0 masterZeros) masterZeros.buff = 0 := by decide +kernel
    -- the block has no payload, and the empty queue takes it
    have htaken : (mqPush masterZeros.tally.q
        (raw2blk 7 0 (masterZeros.buff.ask (askHeader 0 masterZeros)))
        (masterZeros.buff.rbf.mem.ptr masterZeros.tmp)).map (·.1) = some 0 := by
      decide +kernel
    rcases hpushed (by rw [hlen]; decide) with ⟨r, q, hsome, hpos⟩
    rw [hsome] at htaken
    have hlt := hpos (Option.some.inj htaken)
    rw [hlen] at hlt
    exact absurd hlt (by decide)

end SServer.Net
