import SServer.Net.Shutdown

/-!
# SServer.Net.Cuts — what is delivered does not depend on the reads

A byte stream that consists of messages reaches a handler in pieces that the network
chooses. Here `get_msg_len` knows the length of a message from its first byte on, and
the pushes of the master succeed.

The result: after any reads, both handlers have delivered the messages that are complete
in what was received, in order, and keep the rest of it in the buffer. Two runs that
have received the same bytes, in whatever pieces and in whichever process, agree.

* `passLoop_deals`: the loop of a handler on a part of a stream: it deals with what is complete
  and keeps the rest.
* `takeStep_framed`: a chunk that is read is cut where the messages end, whatever was waiting
  before.
* `cuts_agree`: the result: deliveries depend on the stream alone.

`get_msg_len` is asked for the length as soon as a byte is there, so a service that needs more
of a message to tell is outside; that case is `SServer.Net.Header`.
-/

namespace SServer.Net

open SServer.Lib SServer.Queue

variable {Q : Type}

/-! ## Streams of messages -/

/-- The messages of `ms` that are complete in the bytes `bs`. -/
def whole : List (List UInt8) → List UInt8 → List (List UInt8)
  | [], _ => []
  | m :: ms, bs => if m.length ≤ bs.length then m :: whole ms (bs.drop m.length) else []

/-- A stream cut inside its next message, or before it. -/
theorem whole_append {sent todo : List (List UInt8)} {rest : List UInt8}
    (hrest : ∀ m ∈ todo.head?, rest.length < m.length) :
    whole (sent ++ todo) (sent.flatten ++ rest) = sent := by
  induction sent with
  | nil =>
    cases todo with
    | nil => rfl
    | cons m todo =>
      have hshort : rest.length < m.length := hrest m rfl
      simp only [List.nil_append, List.flatten_nil, whole]
      rw [if_neg (by omega)]
  | cons m sent ih =>
    simp only [List.cons_append, List.flatten_cons, List.append_assoc, whole, List.length_append]
    rw [if_pos (by omega), List.drop_left, ih]

/-- `get_msg_len` tells the length of each of the messages `ms` from any non-empty
beginning of it, whatever stands behind the message. -/
def Announces (get : Mem → Int → Int32) (max : Int) (ms : List (List UInt8)) : Prop :=
  ∀ m ∈ ms, 1 ≤ m.length ∧ m.length ≤ max ∧ ∀ mem n, 0 < n →
    (bytes mem n <+: m ∨ m <+: bytes mem n) → (get mem n).toInt = m.length

/-- The length of a message is an int. -/
theorem Announces.lt {get : Mem → Int → Int32} {max : Int} {ms : List (List UInt8)}
    (hget : Announces get max ms) {m : List UInt8} (hm : m ∈ ms) : (m.length : Int) < 2 ^ 31 := by
  rcases hget m hm with ⟨hpos, _, hlen⟩
  have hpre : bytes (ofBytes m) m.length <+: m := ⟨[], by rw [bytes_ofBytes, List.append_nil]⟩
  have hself := hlen (ofBytes m) m.length (by omega) (Or.inl hpre)
  have hlt := (get (ofBytes m) m.length).toInt_lt
  omega

/-- The length that a pass goes by when the bytes behind `tmp_ptr` begin with a message or
a part of one. -/
theorem Announces.lenOf {get : Mem → Int → Int32} {max : Int} {ms : List (List UInt8)}
    (hget : Announces get max ms) {m : List UInt8} (hm : m ∈ ms) {buff : FdBuff} {mem : Mem}
    {rest : List UInt8} (hrlen : 0 < buff.rlen) (hbytes : bytes mem buff.rlen <+: m ++ rest)
    (hmsg : buff.msglen = 0 ∨ buff.msglen = m.length) :
    Net.lenOf (get mem buff.rlen) buff = m.length := by
  rcases hget m hm with ⟨hpos, _, hlen⟩
  unfold Net.lenOf
  by_cases hask : buff.msglen = 0 ∧ 0 < buff.rlen
  · rw [if_pos hask]
    exact hlen mem buff.rlen hrlen
      (List.prefix_or_prefix_of_prefix hbytes (List.prefix_append m rest))
  · rw [if_neg hask]
    rcases hmsg with hzero | hmsg
    · exact absurd ⟨hzero, hrlen⟩ hask
    · exact hmsg

/-! ## Passes -/

/-- What both passes do with a message of any length: wait for the rest of it, or deliver
it, unless a push `fails`. -/
structure Splits (fails : Prop) (pass : Int32 → FdBuff → Int → Tally Q → Pass (Tally Q)) :
    Prop where
  waits : ∀ v buff tmp t, buff.rlen < lenOf v buff →
    pass v buff tmp t = .done (keepRest (buff.ask v) tmp) t
  takes : ∀ v buff tmp t, 0 < lenOf v buff → lenOf v buff < 2 ^ 31 → lenOf v buff ≤ buff.rlen →
    (fails ∧ ∃ t', pass v buff tmp t = .failed (buff.ask v) t' ∧ t'.refused = true) ∨
    ∃ t', t'.sent = t.sent ++ [bytes (buff.rbf.mem.ptr tmp) (lenOf v buff)] ∧
      t'.refused = t.refused ∧
      (0 < (buff.ask v).consume.rlen ∧
          pass v buff tmp t = .again (buff.ask v).consume (tmp + lenOf v buff) t' ∨
        (buff.ask v).consume.rlen ≤ 0 ∧ pass v buff tmp t = .done (buff.ask v).consume t')

/-- `mq_push` with a note of the payloads it has taken, and of a push that is refused or
does not come back. -/
def watching (push : Push Q) : Push (Tally Q) := fun t b data =>
  some ((tallying push t b data).getD (-1, { t with refused := true }))

/-- `mq_push` takes no block that is shorter than its header. -/
def TakesWhole (push : Push Q) : Prop :=
  ∀ q b data q', push q b data = some (0, q') → blkHeadLen ≤ b.len.toInt

/-- A push that succeeds is noted with its payload. -/
theorem watching_zero {push : Push Q} {t t' : Tally Q} {b : MemBlock} {data : Mem}
    (h : watching push t b data = some (0, t')) :
    ∃ q, push t.q b data = some (0, q) ∧
      t' = { t with q := q, sent := t.sent ++ [bytes data (b.len.toInt - blkHeadLen)] } := by
  unfold watching tallying at h
  cases hpush : push t.q b data with
  | none =>
    rw [hpush] at h
    cases h
  | some out =>
    rcases out with ⟨r, q⟩
    rw [hpush] at h
    simp only [Option.map_some, Option.getD_some, Option.some.injEq, Prod.mk.injEq] at h
    rcases h with ⟨rfl, heq⟩
    exact ⟨q, rfl, heq.symm⟩

/-- One that fails is noted as refused. -/
theorem watching_failed {push : Push Q} {t t' : Tally Q} {b : MemBlock} {data : Mem} {r : Int}
    (hr : r ≠ 0) (h : watching push t b data = some (r, t')) : t'.refused = true := by
  unfold watching tallying at h
  cases hpush : push t.q b data with
  | none =>
    rw [hpush] at h
    cases h
    rfl
  | some out =>
    rcases out with ⟨r', q⟩
    rw [hpush] at h
    simp only [Option.map_some, Option.getD_some, Option.some.injEq, Prod.mk.injEq] at h
    rcases h with ⟨rfl, heq⟩
    rw [if_neg hr] at heq
    rw [← heq]

/-- A pass of the master cuts its message off, or its push has failed. -/
theorem framePass_splits {fails : Prop} (hfails : fails) {push : Push Q} (hpush : TakesWhole push)
    (fd idx : Int32) : Splits fails (framePass (watching push) fd idx) := by
  constructor
  · intro v buff tmp t hshort
    rcases framePass_cases (watching push) fd idx v buff tmp t with ⟨_, hpass⟩ | ⟨hle, _⟩
    · exact hpass
    · omega
  · intro v buff tmp t hpos hint hle
    rcases framePass_cases (watching push) fd idx v buff tmp t with
      ⟨hshort, _⟩ | ⟨_, ⟨hnone, _⟩ | ⟨r, t', hsome, hr, hpass⟩ | ⟨t', hsome, hpass⟩⟩
    · omega
    · cases hnone
    · exact Or.inl ⟨hfails, t', hpass, watching_failed hr hsome⟩
    · rcases watching_zero hsome with ⟨q, hq, htally⟩
      -- a block that was taken has its length in an int
      have hfits : lenOf v buff + blkHeadLen < 2 ^ 31 := by
        by_contra hbig
        have hlo : -2 ^ 31 ≤ (buff.ask v).msglen := by
          rw [ask_msglen]
          omega
        have hshort := raw2blk_len_bad fd idx hlo hint (Or.inr (by rw [ask_msglen]; omega))
        have hlong := hpush _ _ _ _ hq
        omega
      have hlen : (raw2blk fd idx (buff.ask v)).len.toInt = lenOf v buff + blkHeadLen :=
        raw2blk_len_good fd idx (by rw [ask_msglen]; omega) hfits
      rw [hlen, Int.add_sub_cancel] at htally
      exact Or.inr ⟨t', by rw [htally], by rw [htally], hpass⟩

/-- A pass of a worker cuts its message off. -/
theorem svrPass_splits (fails : Prop) (proc : Proc Q) (fd : Int32) :
    Splits fails (svrPass (tallyingProc proc) fd) := by
  constructor
  · exact (svrPass_delivers proc fd).waits
  · intro v buff tmp t hpos hint hle
    rcases svrPass_cases (tallyingProc proc) fd v buff tmp t with ⟨hshort, _⟩ | ⟨_, hpass⟩
    · omega
    · exact Or.inr ⟨tallyingProc proc t fd (buff.rbf.mem.ptr tmp) (lenOf v buff), rfl, rfl, hpass⟩

/-! ## The loop -/

/-- The buffer holds the beginning of the first of the messages `todo`, or nothing. -/
def Begun (todo : List (List UInt8)) (buff : FdBuff) : Prop :=
  buff.rlen = 0 ∧ buff.msglen = 0 ∨
    0 < buff.rlen ∧ ∃ m ∈ todo.head?, buff.rlen < m.length ∧ buff.msglen = m.length

/-- The loop has dealt with the bytes `bs`, which begin the messages `todo`: it has
delivered the complete ones behind `sent`, and keeps the rest. -/
def Dealt (todo sent : List (List UInt8)) (bs : List UInt8) (buff : FdBuff) (t : Tally Q) : Prop :=
  ∃ done left, todo = done ++ left ∧ t.sent = sent ++ done ∧
    bs = done.flatten ++ bytes buff.rbf.mem buff.rlen ∧ Begun left buff ∧
    ∃ mem, buff.rbf = .mapped mem

/-- What has been dealt with behind one more message. -/
theorem Dealt.cons {todo sent : List (List UInt8)} {m bs : List UInt8} {buff : FdBuff}
    {t : Tally Q} (h : Dealt todo (sent ++ [m]) bs buff t) :
    Dealt (m :: todo) sent (m ++ bs) buff t := by
  rcases h with ⟨done, left, rfl, hsent, rfl, hbegun, hmap⟩
  refine ⟨m :: done, left, rfl, ?_, ?_, hbegun, hmap⟩
  · rw [hsent, List.append_assoc]
    rfl
  · rw [List.flatten_cons, List.append_assoc]

/-- **The loop deals with everything** behind `tmp_ptr`, unless a push fails. -/
theorem passLoop_deals {fails : Prop} {pass : Int32 → FdBuff → Int → Tally Q → Pass (Tally Q)}
    (hpass : Splits fails pass) {get : Mem → Int → Int32} {max : Int} {ms : List (List UInt8)}
    (hget : Announces get max ms) :
    ∀ (n : Nat) {buff : FdBuff} (tmp : Int) (t : Tally Q) {todo : List (List UInt8)},
      0 < buff.rlen → buff.rlen < n → (∀ m ∈ todo, m ∈ ms) →
      bytes (buff.rbf.mem.ptr tmp) buff.rlen <+: todo.flatten →
      (buff.msglen = 0 ∨ ∃ m ∈ todo.head?, buff.msglen = m.length) →
      (∃ mem, buff.rbf = .mapped mem) →
      ∃ r buff' t', passLoop pass get n buff tmp t = some (r, buff', t') ∧
        (fails ∧ r = -1 ∧ t'.refused = true ∨ r = 0 ∧ t'.refused = t.refused ∧
          Dealt todo t.sent (bytes (buff.rbf.mem.ptr tmp) buff.rlen) buff' t') := by
  intro n
  induction n with
  | zero =>
    intro buff tmp t todo hrlen hn
    omega
  | succ n ih =>
    intro buff tmp t todo hrlen hn htodo hbytes hmsg hmap
    cases todo with
    | nil =>
      -- there is a byte, so there is a message
      have hlen := hbytes.length_le
      rw [bytes_length, List.flatten_nil, List.length_nil] at hlen
      omega
    | cons m todo =>
    have hm : m ∈ ms := htodo m List.mem_cons_self
    have hmsg' : buff.msglen = 0 ∨ buff.msglen = m.length := by
      rcases hmsg with hzero | ⟨m', hm', hmsg⟩
      · exact Or.inl hzero
      · cases hm'
        exact Or.inr hmsg
    have hlen := hget.lenOf hm hrlen hbytes hmsg'
    have hpos := (hget m hm).1
    have hint := hget.lt hm
    unfold passLoop
    generalize get (buff.rbf.mem.ptr tmp) buff.rlen = v at hlen
    by_cases hshort : buff.rlen < lenOf v buff
    · -- the message is not complete
      rw [hpass.waits v buff tmp t hshort]
      refine ⟨0, _, _, rfl, Or.inr ⟨rfl, rfl, [], m :: todo, rfl, ?_, ?_, Or.inr ?_, ?_⟩⟩
      · rw [List.append_nil]
      · rw [keepRest_rlen]
        exact (keepRest_bytes (buff.ask v) tmp).symm
      · rw [keepRest_rlen, keepRest_msglen]
        exact ⟨hrlen, m, rfl, by rw [ask_rlen]; omega, hlen⟩
      · exact keepRest_mapped hmap
    · rcases prefix_split hbytes (by omega) with ⟨rest, hsplit, hrest⟩
      rcases bytes_split (Int.le_of_lt hrlen) hsplit with ⟨hfirst, hbehind⟩
      rw [Mem.ptr_ptr] at hbehind
      rcases hpass.takes v buff tmp t (by omega) (by omega) (by omega) with
        ⟨hfails, t', heq, hrefused⟩ | ⟨t', hsent, hrefused, hcase⟩
      · rw [heq]
        exact ⟨-1, _, _, rfl, Or.inl ⟨hfails, rfl, hrefused⟩⟩
      rw [hlen, hfirst] at hsent
      rw [hsplit]
      have hleft : (buff.ask v).consume.rlen = buff.rlen - m.length := by
        rw [consume_rlen (by omega) (by omega), hlen]
      rcases hcase with ⟨hmore, heq⟩ | ⟨hend, heq⟩
      · -- the next message begins behind this one
        rw [heq]
        simp only
        have hbytes' : bytes ((buff.ask v).consume.rbf.mem.ptr (tmp + lenOf v buff))
            (buff.ask v).consume.rlen = rest := by
          rw [consume_rbf, ask_rbf, hleft, hlen]
          exact hbehind
        have hless : (buff.ask v).consume.rlen < n := by omega
        rcases ih (tmp + lenOf v buff) t' hmore hless
          (fun m' hm' => htodo m' (List.mem_cons_of_mem m hm')) (hbytes'.symm ▸ hrest)
          (Or.inl rfl) hmap with ⟨r, buff', t'', hloop, hcase⟩
        refine ⟨r, buff', t'', hloop, ?_⟩
        rcases hcase with hno | ⟨hr, hsame, hdealt⟩
        · exact Or.inl hno
        · rw [hsent, hbytes'] at hdealt
          exact Or.inr ⟨hr, hsame.trans hrefused, hdealt.cons⟩
      · -- this was the last byte
        rw [heq]
        have hzero : (buff.ask v).consume.rlen = 0 := by omega
        have hnone : rest = [] := by
          rw [← hbehind, show buff.rlen - (m.length : Int) = 0 by omega, bytes_zero]
        refine ⟨0, _, _, rfl, Or.inr ⟨rfl, hrefused, [m], todo, rfl, hsent, ?_, ?_, hmap⟩⟩
        · rw [hzero, hnone, bytes_zero]
          simp
        · exact Or.inl ⟨hzero, rfl⟩

/-! ## Runs -/

/-- The master or a worker. -/
inductive Side where
  | master
  | worker

/-- A call of `handle_cli` or of `do_proc_svr`. -/
def sideStep (push : Push Q) (proc : Proc Q) (get : Mem → Int → Int32) (max : Int)
    (fd idx : Int32) : Side → ReadCall → TakeSt Q → Option (TakeSt Q)
  | .master => takeStep max (handleCli (watching push) get max fd idx)
  | .worker => takeStep max (doProcSvr (tallyingProc proc) get max fd)

/-- A call that feeds the handler a chunk: some bytes arrive, and no end of the stream. -/
def Feeds (l : ReadCall) : Prop :=
  .eof ∉ l.outs ∧ .err ∉ l.outs ∧ received l.outs ≠ []

instance (l : ReadCall) : Decidable (Feeds l) := inferInstanceAs (Decidable (_ ∧ _ ∧ _))

/-- What a handler has done with the bytes it has taken: delivered the messages that are
complete in them, and kept the rest, with the length of the message that it begins. -/
structure CutWhole (ms : List (List UInt8)) (s : TakeSt Q) : Prop where
  isOpen : s.isOpen = true
  returned : s.returned = true
  sent : s.tally.sent = whole ms s.taken
  rest : bytes s.conn.buff.rbf.mem s.conn.buff.rlen =
    s.taken.drop (whole ms s.taken).flatten.length
  msglen : s.conn.buff.rlen = 0 ∧ s.conn.buff.msglen = 0 ∨ 0 < s.conn.buff.rlen ∧
    ∃ m, ms[(whole ms s.taken).length]? = some m ∧ s.conn.buff.msglen = m.length

/-- The invariant of a connection that is fed. -/
structure Framed (ms : List (List UInt8)) (s : TakeSt Q) : Prop where
  isOpen : s.isOpen = true
  returned : s.returned = true
  cut : ∃ todo, ms = s.tally.sent ++ todo ∧
    s.taken = s.tally.sent.flatten ++ bytes s.conn.buff.rbf.mem s.conn.buff.rlen ∧
    Begun todo s.conn.buff
  rbf : s.conn.buff.rbf = .null ∧ s.conn.buff.rlen = 0 ∨ ∃ mem, s.conn.buff.rbf = .mapped mem

/-- The beginning of a message is in a sound buffer. -/
theorem Begun.kept {todo : List (List UInt8)} {buff : FdBuff} (h : Begun todo buff)
    (hrbf : buff.rbf = .null ∧ buff.rlen = 0 ∨ ∃ mem, buff.rbf = .mapped mem) : Kept buff := by
  rcases h with ⟨hzero, hmsg⟩ | ⟨hpos, _⟩
  · exact ⟨Int.le_of_eq hzero.symm, fun _ => hmsg, hrbf⟩
  · exact ⟨Int.le_of_lt hpos, fun hzero => by omega, hrbf⟩

/-- So is what a framed stream leaves. -/
theorem Framed.kept {ms : List (List UInt8)} {s : TakeSt Q} (h : Framed ms s) :
    Kept s.conn.buff := by
  rcases h.cut with ⟨todo, _, _, hbegun⟩
  exact hbegun.kept h.rbf

/-- Where a stream is framed, the messages that are complete have been delivered. -/
theorem Framed.cutWhole {get : Mem → Int → Int32} {max : Int} {ms : List (List UInt8)}
    (hget : Announces get max ms) {s : TakeSt Q} (h : Framed ms s) : CutWhole ms s := by
  rcases h.cut with ⟨todo, hms, htaken, hbegun⟩
  have hshort : ∀ m ∈ todo.head?,
      (bytes s.conn.buff.rbf.mem s.conn.buff.rlen).length < m.length := by
    intro m hm
    have hmem : m ∈ ms := by
      rw [hms]
      exact List.mem_append_right _ (List.mem_of_mem_head? hm)
    have hpos := (hget m hmem).1
    rw [bytes_length]
    rcases hbegun with ⟨hzero, _⟩ | ⟨_, m', hm', hlt, _⟩
    · omega
    · cases hm.symm.trans hm'
      omega
  have hwhole : whole ms s.taken = s.tally.sent := by
    rw [hms, htaken]
    exact whole_append hshort
  refine ⟨h.isOpen, h.returned, hwhole.symm, ?_, ?_⟩
  · rw [hwhole, htaken, List.drop_left]
  · rcases hbegun with hnone | ⟨hpos, m, hm, _, hmsg⟩
    · exact Or.inl hnone
    · refine Or.inr ⟨hpos, m, ?_, hmsg⟩
      rw [hwhole, hms, List.getElem?_append_right (Nat.le_refl _), Nat.sub_self,
        ← List.head?_eq_getElem?]
      exact hm

/-- As long as the bytes taken begin the messages, the connection is framed, or a push
has failed. -/
def CutInv (fails : Prop) (ms : List (List UInt8)) (s : TakeSt Q) : Prop :=
  s.taken <+: ms.flatten →
    fails ∧ s.isOpen = false ∧ s.tally.refused = true ∨ Framed ms s

/-- Nothing has been received at first. -/
theorem takeInit_framed (ms : List (List UInt8)) (q : Q) : Framed ms (takeInit q) :=
  ⟨rfl, rfl, ⟨ms, rfl, rfl, Or.inl ⟨rfl, rfl⟩⟩, Or.inl ⟨rfl, rfl⟩⟩

/-- **A chunk is cut where the messages end.** -/
theorem takeStep_framed {fails : Prop} {pass : Int32 → FdBuff → Int → Tally Q → Pass (Tally Q)}
    (hpass : Splits fails pass) {get : Mem → Int → Int32} {max : Int} {ms : List (List UInt8)}
    (hget : Announces get max ms) {l : ReadCall} (hl : Feeds l) {s t : TakeSt Q}
    (hs : CutInv fails ms s) (hstep : takeStep max (handlerOf pass get max) l s = some t) :
    CutInv fails ms t := by
  intro htaken
  rcases hl with ⟨heof, herr, hne⟩
  unfold takeStep handlerOf at hstep
  by_cases hopen : s.isOpen = true
  swap
  · rw [if_neg hopen] at hstep
    cases hstep
  rw [if_pos hopen] at hstep
  cases hread : handleRead max l.mapped s.conn l.outs with
  | error e =>
    rw [hread] at hstep
    cases hstep
  | ok out =>
  rcases out with ⟨r, c, _ | ⟨o, more⟩⟩
  swap
  · rw [hread] at hstep
    cases hstep
  simp only [hread] at hstep
  have htake : t.taken = s.taken ++ received l.outs := by
    split at hstep
    · cases hstep
      rfl
    · cases hstep
      rfl
  rw [htake] at htaken
  rcases hs ((List.prefix_append _ _).trans htaken) with ⟨_, hclosed, _⟩ | hframed
  · rw [hclosed] at hopen
    cases hopen
  rcases hframed.cut with ⟨todo, hms, hold, hbegun⟩
  -- the chunk belongs to the messages that are still to come
  have hchunk : bytes s.conn.buff.rbf.mem s.conn.buff.rlen ++ received l.outs <+: todo.flatten := by
    rw [hold, hms, List.flatten_append, List.append_assoc] at htaken
    exact (List.prefix_append_right_inj _).mp htaken
  have hmem : ∀ m ∈ todo, m ∈ ms := by
    intro m hm
    rw [hms]
    exact List.mem_append_right _ hm
  have hmax : 0 < max := by
    cases todo with
    | nil =>
      have hnone := List.append_eq_nil_iff.mp (List.prefix_nil.mp hchunk)
      exact absurd hnone.2 hne
    | cons m todo =>
      rcases hget m (hmem m List.mem_cons_self) with ⟨hpos, hle, _⟩
      omega
  have hkept := hbegun.kept hframed.rbf
  rcases handleRead_takes hkept hmax hread with ⟨_, _, halone⟩ | ⟨hr, ht, hpos, _, hmap⟩
  · -- no read of a chunk fails
    exact absurd (halone.mpr fun hends => absurd hends (not_or.mpr ⟨heof, herr⟩)) hne
  rw [if_neg hr] at hstep
  have hmsg : c.buff.msglen = 0 ∨ ∃ m ∈ todo.head?, c.buff.msglen = m.length := by
    rw [ht.msglen]
    rcases hbegun with ⟨_, hzero⟩ | ⟨_, m, hm, _, hmsg⟩
    · exact Or.inl hzero
    · exact Or.inr ⟨m, hm, hmsg⟩
  rcases passLoop_deals hpass hget (passBound c.buff) 0 s.tally hpos (rlen_lt_passBound _)
    hmem (by rw [Mem.ptr_zero, ht.all]; exact hchunk) hmsg hmap with ⟨r', buff', t', hloop, hcase⟩
  rw [hloop] at hstep
  cases hstep
  rcases hcase with
    ⟨hfails, hr', hrefused⟩ | ⟨hr', _, done, left, htodo, hsent, hbytes, hbegun', hmap'⟩
  · exact Or.inl ⟨hfails, by simp [hr'], hrefused⟩
  · refine Or.inr ⟨by simp [hr'], rfl, ⟨left, ?_, ?_, hbegun'⟩, Or.inr hmap'⟩
    · rw [hsent, List.append_assoc, ← htodo]
      exact hms
    · rw [Mem.ptr_zero, ht.all] at hbytes
      simp only [hold, hsent, List.flatten_append, List.append_assoc, hbytes]

/-! ## A chunk that fits -/

/-- The answers of `recv` to a call that finds the chunk and no more. -/
def chunkOuts (max rlen : Int) (chunk : List UInt8) : List RecvRes :=
  if rlen + chunk.length = max then [.data chunk] else [.data chunk, .eagain]

/-- The answers of `recv` for a chunk: its bytes, and `EAGAIN` when the buffer has more room. -/
theorem chunkOuts_feeds (max rlen : Int) {chunk : List UInt8} (hne : chunk ≠ []) :
    Feeds ⟨true, chunkOuts max rlen chunk⟩ ∧ received (chunkOuts max rlen chunk) = chunk := by
  unfold Feeds chunkOuts
  by_cases hfull : rlen + chunk.length = max
  · simp [hfull, received, hne]
  · simp [hfull, received, hne]

/-- They are what a read with room for the chunk asks for. -/
theorem readMapped_chunk {max : Int} {mem : Mem} {c : RecvConn} {chunk : List UInt8}
    (hne : chunk ≠ []) (h0 : 0 ≤ c.buff.rlen) (hfit : c.buff.rlen + chunk.length ≤ max) :
    ∃ c', readMapped max mem c (chunkOuts max c.buff.rlen chunk) = .ok (chunk.length, c', []) := by
  have hpos : 0 < (chunk.length : Int) := by
    have hlen := List.length_pos_iff.mpr hne
    omega
  have hrecv : safeTcpRecvN (max - c.buff.rlen) (chunkOuts max c.buff.rlen chunk) =
      .ok ⟨chunk.length, chunk, []⟩ := by
    unfold chunkOuts
    by_cases hfull : c.buff.rlen + chunk.length = max
    · rw [if_pos hfull, safeTcpRecvN_data hne (by omega), recvLoop, if_pos (by omega)]
    · rw [if_neg hfull, safeTcpRecvN_data hne (by omega), recvLoop, if_neg (by omega)]
  unfold readMapped
  rw [if_neg (by omega), intSub_of_le h0 (by omega), hrecv]
  simp only
  rw [if_pos hpos]
  exact ⟨_, rfl⟩

/-- `handle_read` appends every chunk that fits. -/
theorem handleRead_chunk {max : Int} {c : RecvConn} {chunk : List UInt8} (hne : chunk ≠ [])
    (h0 : 0 ≤ c.buff.rlen) (hfit : c.buff.rlen + chunk.length ≤ max)
    (hrbf : c.buff.rbf = .null ∧ c.buff.rlen = 0 ∨ ∃ mem, c.buff.rbf = .mapped mem) :
    ∃ c', handleRead max true c (chunkOuts max c.buff.rlen chunk) =
      .ok (chunk.length, c', []) := by
  unfold handleRead
  rcases hrbf with ⟨hnull, hzero⟩ | ⟨mem, hmem⟩
  · rw [hnull, hzero]
    rw [hzero] at hfit
    exact readMapped_chunk hne
      (c := { c with buff := { c.buff with msglen := 0, rlen := 0, rbf := .mapped fun _ => 0 } })
      (Int.le_refl 0) hfit
  · rw [hmem]
    exact readMapped_chunk hne h0 hfit

/-- So a chunk that fits can be received at any time. -/
theorem takeStep_chunk {max : Int} {handler : Handler Q} {ms : List (List UInt8)} {s : TakeSt Q}
    (hs : Framed ms s) {chunk : List UInt8} (hne : chunk ≠ [])
    (hfit : s.conn.buff.rlen + chunk.length ≤ max) :
    ∃ l t, Feeds l ∧ takeStep max handler l s = some t ∧ t.taken = s.taken ++ chunk := by
  rcases chunkOuts_feeds max s.conn.buff.rlen hne with ⟨hfeeds, hreceived⟩
  rcases handleRead_chunk hne hs.kept.nonneg hfit hs.rbf with ⟨c', hread⟩
  refine ⟨⟨true, chunkOuts max s.conn.buff.rlen chunk⟩, ?_⟩
  unfold takeStep
  rw [if_pos hs.isOpen, hread]
  simp only [hreceived]
  cases handler true (chunkOuts max s.conn.buff.rlen chunk) s.conn s.tally with
  | none => exact ⟨_, hfeeds, rfl, rfl⟩
  | some out => exact ⟨_, hfeeds, rfl, rfl⟩

/-! ## Both handlers, on every cut -/

variable {push : Push Q} {proc : Proc Q} {get : Mem → Int → Int32} {max : Int} {fd idx : Int32}
  {q : Q} {ms : List (List UInt8)}

/-- A connection that was fed chunks of the messages `ms`; in the master no push has failed. -/
structure Fed (push : Push Q) (proc : Proc Q) (get : Mem → Int → Int32) (max : Int)
    (fd idx : Int32) (q : Q) (ms : List (List UInt8)) (side : Side) (ls : List ReadCall)
    (s : TakeSt Q) : Prop where
  feeds : ∀ l ∈ ls, Feeds l
  run : exec (sideStep push proc get max fd idx side) ls (takeInit q) = some s
  stream : s.taken <+: ms.flatten
  pushed : side = .master → s.tally.refused = false

/-- Two connections that have delivered and that keep the same. -/
structure Agrees (s t : TakeSt Q) : Prop where
  sent : s.tally.sent = t.tally.sent
  rlen : s.conn.buff.rlen = t.conn.buff.rlen
  msglen : s.conn.buff.msglen = t.conn.buff.msglen
  rest : bytes s.conn.buff.rbf.mem s.conn.buff.rlen = bytes t.conn.buff.rbf.mem t.conn.buff.rlen

/-- Two cuts of the same bytes are the same. -/
theorem CutWhole.agrees {s t : TakeSt Q} (hs : CutWhole ms s) (ht : CutWhole ms t)
    (htaken : s.taken = t.taken) : Agrees s t := by
  have hrest : bytes s.conn.buff.rbf.mem s.conn.buff.rlen =
      bytes t.conn.buff.rbf.mem t.conn.buff.rlen := by
    rw [hs.rest, ht.rest, htaken]
  have hrlen : s.conn.buff.rlen = t.conn.buff.rlen := by
    have hlen := congrArg List.length hrest
    rw [bytes_length, bytes_length] at hlen
    rcases hs.msglen with ⟨h, _⟩ | ⟨h, _⟩
    all_goals
      rcases ht.msglen with ⟨h', _⟩ | ⟨h', _⟩
      all_goals omega
  refine ⟨by rw [hs.sent, ht.sent, htaken], hrlen, ?_, hrest⟩
  rcases hs.msglen with ⟨hz, hmsg⟩ | ⟨hp, m, hm, hmsg⟩
  · rcases ht.msglen with ⟨_, hmsg'⟩ | ⟨hp', _⟩
    · rw [hmsg, hmsg']
    · omega
  · rcases ht.msglen with ⟨hz', _⟩ | ⟨_, m', hm', hmsg'⟩
    · omega
    · rw [htaken] at hm
      cases hm.symm.trans hm'
      rw [hmsg, hmsg']

/-- A step of either process keeps the stream framed. -/
theorem sideStep_framed (hpush : TakesWhole push) (hget : Announces get max ms) {side : Side}
    {l : ReadCall} (hl : Feeds l) {s t : TakeSt Q} (hs : CutInv (side = .master) ms s)
    (hstep : sideStep push proc get max fd idx side l s = some t) :
    CutInv (side = .master) ms t := by
  cases side with
  | master =>
    unfold sideStep at hstep
    rw [handleCli_eq] at hstep
    exact takeStep_framed (framePass_splits rfl hpush fd idx) hget hl hs hstep
  | worker => exact takeStep_framed (svrPass_splits _ proc fd) hget hl hs hstep

/-- So does a run. -/
theorem Fed.framed (hpush : TakesWhole push) (hget : Announces get max ms) {side : Side}
    {ls : List ReadCall} {s : TakeSt Q} (h : Fed push proc get max fd idx q ms side ls s) :
    Framed ms s := by
  have hinv : CutInv (side = .master) ms s := by
    refine exec_invariant (CutInv (side = .master) ms) (C := fun l _ => Feeds l)
      (fun l s t hs hl hstep => sideStep_framed hpush hget hl hs hstep)
      (fun _ => Or.inr (takeInit_framed ms q)) (along_of_forall h.feeds _) h.run
  rcases hinv h.stream with ⟨hmaster, _, hrefused⟩ | hframed
  · rw [h.pushed hmaster] at hrefused
    cases hrefused
  · exact hframed

/-- **What is delivered depends on the stream alone.** For every `get_msg_len` that knows
the messages of a stream from their first bytes on, and every way of feeding the stream:
`handle_cli`, if its pushes succeed, and `do_proc_svr` have delivered the messages that
are complete in what they have taken, in order, and keep the rest; any two of them that
have taken the same bytes agree; and whatever fits can be fed next. -/
theorem cuts_agree (hpush : TakesWhole push) (hget : Announces get max ms) {side : Side}
    {ls : List ReadCall} {s : TakeSt Q} (hfed : Fed push proc get max fd idx q ms side ls s) :
    CutWhole ms s ∧
      (∀ side' ls' s', Fed push proc get max fd idx q ms side' ls' s' → s'.taken = s.taken →
        Agrees s' s) ∧
      ∀ chunk, chunk ≠ [] → s.conn.buff.rlen + chunk.length ≤ max →
        ∃ l t, Feeds l ∧ sideStep push proc get max fd idx side l s = some t ∧
          t.taken = s.taken ++ chunk := by
  have hframed := hfed.framed hpush hget
  refine ⟨hframed.cutWhole hget, fun side' ls' s' hfed' htaken => ?_, fun chunk hne hfit => ?_⟩
  · exact ((hfed'.framed hpush hget).cutWhole hget).agrees (hframed.cutWhole hget) htaken
  · cases side with
    | master => exact takeStep_chunk hframed hne hfit
    | worker => exact takeStep_chunk hframed hne hfit

/-! ## One stream in two ways -/

/-- A block that a ring takes has its header. -/
theorem append_takesWhole {q q' : MemQueue} {b : MemBlock} {data : Mem}
    (h : q.append b data = some (0, q')) : blkHeadLen ≤ b.len.toInt := by
  unfold MemQueue.append at h
  by_cases hshort : b.len.toInt < blkHeadLen
  · rw [if_pos hshort] at h
    cases h
  · omega

/-- So it has however many jumps back its push makes. -/
theorem pushAgain_takesWhole {b : MemBlock} {data : Mem} :
    ∀ (n : Nat) {q q' : MemQueue}, pushAgain n q b data = some (0, q') →
      blkHeadLen ≤ b.len.toInt := by
  intro n
  induction n with
  | zero =>
    intro q q' h
    cases h
  | succ n ih =>
    intro q q' h
    unfold pushAgain at h
    by_cases hflat : q.tail ≤ q.head
    · rw [if_pos hflat] at h
      by_cases hend : q.len ≤ q.head + b.len.toInt
      · rw [if_pos hend] at h
        simp only at h
        generalize (if q.head + blkHeadLen ≤ q.len then q.writeAlign else q) = q₁ at h
        by_cases hfull : memHeadLen = q₁.tail
        · rw [if_pos hfull] at h
          cases h
        · rw [if_neg hfull] at h
          exact ih h
      · rw [if_neg hend] at h
        exact append_takesWhole h
    · rw [if_neg hflat, if_pos (by omega)] at h
      by_cases hfull : q.tail ≤ q.head + b.len.toInt
      · rw [if_pos hfull] at h
        cases h
      · rw [if_neg hfull] at h
        exact append_takesWhole h

/-- `mq_push` takes no block shorter than its header. -/
theorem mqPush_takesWhole : TakesWhole mqPush := fun _ _ _ _ h => pushAgain_takesWhole 2 h

/-- Messages whose first byte is their length. -/
def firstByte (mem : Mem) (_len : Int) : Int32 := Int32.ofInt (mem 0).toNat

/-- Two of them. -/
def twoMessages : List (List UInt8) := [[5, 1, 2, 3, 4], [3, 7, 8]]

/-- Either way round, the first byte of the message is the one in front. -/
theorem head_of_prefix {mem : Mem} {n : Int} (hn : 0 < n) {b : UInt8} {m : List UInt8}
    (h : bytes mem n <+: b :: m ∨ b :: m <+: bytes mem n) : mem 0 = b := by
  have hget : (bytes mem n)[0]? = some (mem 0) := bytes_getElem? hn
  rcases h with ⟨rest, hrest⟩ | ⟨rest, hrest⟩
  · have hfirst := congrArg (·[0]?) hrest
    rw [List.getElem?_append_left (by rw [bytes_length]; omega), hget] at hfirst
    exact Option.some.inj hfirst
  · rw [← hrest] at hget
    exact (Option.some.inj hget).symm

/-- Lengths in the first byte, for the two messages of the example. -/
theorem firstByte_announces : Announces firstByte 16 twoMessages := by
  intro m hm
  simp only [twoMessages, List.mem_cons, List.not_mem_nil, or_false] at hm
  rcases hm with rfl | rfl
  · refine ⟨by decide, by decide, fun mem n hn h => ?_⟩
    rw [firstByte, head_of_prefix hn h]
    decide
  · refine ⟨by decide, by decide, fun mem n hn h => ?_⟩
    rw [firstByte, head_of_prefix hn h]
    decide

/-- Three reads, the last of which ends inside the second message. -/
def threeReads : List ReadCall :=
  [⟨true, [.data [5, 1], .eagain]⟩, ⟨true, [.data [2], .eintr, .data [3, 4, 3], .eagain]⟩,
    ⟨true, [.data [7], .eagain]⟩]

/-- The first message has been delivered, and the second one waits in the buffer. -/
theorem cuts_agree_threeReads : ∃ s, exec (sideStep mqPush (fun q _ _ _ => q) firstByte 16 7 0
      .master) threeReads (takeInit (mqInit 128)) = some s ∧ CutWhole twoMessages s ∧
      s.tally.sent = [[5, 1, 2, 3, 4]] := by
  have hsome : (exec (sideStep mqPush (fun q _ _ _ => q) firstByte 16 7 0 .master) threeReads
      (takeInit (mqInit 128))).isSome := by
    decide +kernel
  have hfacts : ∀ s ∈ exec (sideStep mqPush (fun q _ _ _ => q) firstByte 16 7 0 .master) threeReads
      (takeInit (mqInit 128)), s.taken <+: twoMessages.flatten ∧ s.tally.refused = false ∧
        s.tally.sent = [[5, 1, 2, 3, 4]] := by
    decide +kernel
  rcases Option.isSome_iff_exists.mp hsome with ⟨s, hrun⟩
  rcases hfacts s hrun with ⟨hstream, hpushed, hsent⟩
  have hfed : Fed mqPush (fun q _ _ _ => q) firstByte 16 7 0 (mqInit 128) twoMessages .master
      threeReads s := ⟨by decide, hrun, hstream, fun _ => hpushed⟩
  exact ⟨s, hrun, (cuts_agree mqPush_takesWhole firstByte_announces hfed).1, hsent⟩

end SServer.Net
