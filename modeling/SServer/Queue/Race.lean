import SServer.Lib.Run
import SServer.Queue.Rep

/-!
# SServer.Queue.Race — one producer and one consumer on one ring

`mq_push` on one side, `mq_get` and `mq_pop` on the other, cut into the single
reads and writes of `head` and `tail` in the order of the source. Nothing is
shared but the ring, so a run is any interleaving of the two parties' steps.
Every re-read of the source is a step of its own; in particular the `if` and
the `else if` of one comparison read both indices afresh. The bytes of a block
are written in the step before the one that loads `head` to advance it.

`blk_cnt` is left out: the source calls it an estimate, both parties write it
without synchronisation, and neither `mq_push` nor `mq_get` reads it.

* `mqPush_alone`, `mqGet_alone`, `mqPop_alone`: uninterrupted, the steps of a party are the
  functions of `SServer.Queue.MemQueue`: the two models are of one source.

A load or a store of an index is atomic, and both parties see the stores in one order. There is
one producer and one consumer, as each ring has.
-/

namespace SServer.Queue

open SServer.Lib

/-! ## Program counters -/

/-- Where the producer stands in `mq_push`: at its next access of an index. An
argument is a value it has read and not used yet. -/
inductive PushPc where
  | idle
  -- `ptr->head >= ptr->tail`
  | test1Head
  | test1Tail (h : Int)
  -- `ptr->head + b->len >= q->len`
  | endHead
  -- `ptr->head + blk_head_len <= q->len`
  | alignHead
  -- `blk = blk_head(q); blk->type = BLK_ALIGN`
  | alignType
  -- `blk->len = q->len - ptr->head`
  | alignLen (blk : Int)
  -- `mem_head_len == ptr->tail`
  | startTail
  -- `ptr->head = mem_head_len`
  | wrapStore
  -- `else if (ptr->head < ptr->tail)`
  | test2Head
  | test2Tail (h : Int)
  -- `ptr->head + b->len >= ptr->tail`
  | roomHead
  | roomTail (h : Int)
  -- `blk = blk_head(q)` and the two `memcpy`
  | copy
  -- `ptr->head += b->len`
  | bumpLoad
  | bumpStore (h : Int)
  -- `return r`; whether this call has moved `head` over its block
  | ret (r : Int) (published : Bool)
deriving DecidableEq

/-- Where the consumer stands in `mq_get`, or in the `mq_pop` after it. -/
inductive GetPc where
  | idle
  -- `ptr->head > ptr->tail`
  | fullHead
  | fullTail (h : Int)
  -- `ptr->head >= ptr->tail + blk_head_len`
  | fitHead
  | fitTail (h : Int)
  -- `return blk_tail(q)`
  | flatTail
  -- `else if (ptr->head < ptr->tail)`
  | wrapHead
  | wrapTail (h : Int)
  -- `q->len < ptr->tail + blk_head_len`
  | endTail
  -- `blk = blk_tail(q); blk->type == BLK_ALIGN`
  | typeTail
  -- `ptr->tail = mem_head_len; goto get_again`
  | rewind
  -- `mq_get` has returned the block at `blk`; next `b = blk_tail(q)` of `mq_pop`
  | got (blk : Int)
  -- `ptr->tail += b->len`
  | popLoad (b : Int)
  | popStore (b t : Int)
deriving DecidableEq

/-! ## States and steps -/

/-- The ring and the two parties. `pushed` are the blocks whose `mq_push` has
returned `0`, `popped` those that `mq_pop` has stepped over. -/
structure RaceSt where
  q : MemQueue
  push : PushPc
  b : MemBlock
  data : Mem
  get : GetPc
  pushed : List Blk
  popped : List Blk

/-- Both parties idle on a fresh queue. -/
def raceInit (size : Int) : RaceSt :=
  { q := mqInit size
    push := .idle
    b := ⟨0, 0, 0, 0⟩
    data := fun _ => 0
    get := .idle
    pushed := []
    popped := [] }

/-- The producer calls `mq_push(q, b, data)`, the producer takes its next step,
or the consumer takes its next step. -/
inductive RaceLbl where
  | call (b : MemBlock) (data : Mem)
  | producer
  | consumer

/-- One step of `mq_push`. -/
def pushStep (s : RaceSt) : Option RaceSt :=
  match s.push with
  | .idle => none
  | .test1Head => some { s with push := .test1Tail s.q.head }
  | .test1Tail h => some { s with push := if s.q.tail ≤ h then .endHead else .test2Head }
  | .endHead =>
    some { s with push := if s.q.len ≤ s.q.head + s.b.len.toInt then .alignHead else .copy }
  | .alignHead =>
    some { s with push := if s.q.head + blkHeadLen ≤ s.q.len then .alignType else .startTail }
  | .alignType =>
    some { s with q := s.q.setType s.q.blkHead .blkAlign, push := .alignLen s.q.blkHead }
  | .alignLen blk =>
    some { s with q := s.q.setLen blk (s.q.len - s.q.head), push := .startTail }
  | .startTail =>
    some { s with push := if memHeadLen = s.q.tail then .ret (-1) false else .wrapStore }
  | .wrapStore => some { s with q := { s.q with head := memHeadLen }, push := .test1Head }
  | .test2Head => some { s with push := .test2Tail s.q.head }
  | .test2Tail h => some { s with push := if h < s.q.tail then .roomHead else .ret 0 false }
  | .roomHead => some { s with push := .roomTail s.q.head }
  | .roomTail h =>
    some { s with push := if s.q.tail ≤ h + s.b.len.toInt then .ret (-1) false else .copy }
  | .copy => some { s with q := s.q.copyBlk s.q.blkHead s.b s.data, push := .bumpLoad }
  | .bumpLoad => some { s with push := .bumpStore s.q.head }
  | .bumpStore h =>
    some { s with q := { s.q with head := h + s.b.len.toInt }, push := .ret 0 true }
  | .ret r _ =>
    some { s with
      push := .idle
      pushed := if r = 0 then s.pushed ++ [s.b.withData s.data] else s.pushed }

/-- One step of `mq_get` and `mq_pop`; an idle consumer calls `mq_get`. -/
def getStep (s : RaceSt) : RaceSt :=
  match s.get with
  | .idle => { s with get := .fullHead }
  | .fullHead => { s with get := .fullTail s.q.head }
  | .fullTail h => { s with get := if s.q.tail < h then .fitHead else .wrapHead }
  | .fitHead => { s with get := .fitTail s.q.head }
  | .fitTail h => { s with get := if s.q.tail + blkHeadLen ≤ h then .flatTail else .idle }
  | .flatTail => { s with get := .got s.q.blkTail }
  | .wrapHead => { s with get := .wrapTail s.q.head }
  | .wrapTail h => { s with get := if h < s.q.tail then .endTail else .idle }
  | .endTail =>
    { s with get := if s.q.len < s.q.tail + blkHeadLen then .rewind else .typeTail }
  | .typeTail =>
    if (MemBlock.decode (s.q.mem.ptr s.q.blkTail)).type = MemBlockType.blkAlign.code then
      { s with get := .rewind }
    else { s with get := .got s.q.blkTail }
  | .rewind => { s with q := { s.q with tail := memHeadLen }, get := .fullHead }
  | .got _ => { s with get := .popLoad s.q.blkTail }
  | .popLoad b => { s with get := .popStore b s.q.tail }
  | .popStore b t =>
    { s with
      q := { s.q with tail := t + (MemBlock.decode (s.q.mem.ptr b)).len.toInt }
      get := .idle
      popped := s.popped ++ [blkAt (s.q.mem.ptr b)] }

/-- One step of either party. -/
def raceStep : RaceLbl → RaceSt → Option RaceSt
  | .call b data, s =>
    if s.push = .idle ∧ b.Pushable then
      some { s with push := .test1Head, b := b, data := data }
    else none
  | .producer, s => pushStep s
  | .consumer, s => some (getStep s)

/-! ## One party left alone

The steps of one call, taken with none of the other party's in between, compute
the function of `SServer.Queue.MemQueue`. -/

/-- The state after an `mq_push` that returned `r` and left the queue `q'`. -/
def RaceSt.returned (s : RaceSt) (r : Int) (q' : MemQueue) : RaceSt :=
  { s with
    q := { q' with blkCnt := s.q.blkCnt }
    push := .idle
    pushed := if r = 0 then s.pushed ++ [s.b.withData s.data] else s.pushed }

/-- The last steps of a push that has found room. -/
theorem append_alone {s : RaceSt} (hpc : s.push = .copy) {r : Int} {q' : MemQueue}
    (h : s.q.append s.b s.data = some (r, q')) : Repeat raceStep .producer s (s.returned r q') := by
  have hcopy : raceStep .producer s
      = some { s with q := s.q.copyBlk s.q.blkHead s.b s.data, push := .bumpLoad } := by
    show pushStep s = _
    unfold pushStep
    rw [hpc]
  unfold MemQueue.append at h
  split at h
  · cases h
  · cases h
    exact .step hcopy (.step rfl (.step rfl (.step rfl (.refl _))))

/-- A push from its first comparison on, with the jumps back that it makes. -/
theorem pushAgain_alone (n : Nat) {s : RaceSt} (hpc : s.push = .test1Head) {r : Int}
    {q' : MemQueue} (h : pushAgain n s.q s.b s.data = some (r, q')) :
    Repeat raceStep .producer s (s.returned r q') := by
  induction n generalizing s with
  | zero => cases h
  | succ n ih =>
    rcases s with ⟨q, push, b, data, get, pushed, popped⟩
    cases hpc
    -- from the test of `tail` against the beginning on, the ring may be marked or not
    have hstart : ∀ q₁ : MemQueue, q₁.blkCnt = q.blkCnt →
        (if memHeadLen = q₁.tail then some (-1, q₁)
          else pushAgain n { q₁ with head := memHeadLen } b data) = some (r, q') →
        Repeat raceStep .producer ⟨q₁, .startTail, b, data, get, pushed, popped⟩
          (RaceSt.returned ⟨q, .test1Head, b, data, get, pushed, popped⟩ r q') := by
      intro q₁ hcnt hq₁
      refine .step rfl ?_
      by_cases hfull : memHeadLen = q₁.tail
      · simp only [if_pos hfull] at hq₁ ⊢
        cases hq₁
        unfold RaceSt.returned
        rw [← hcnt]
        exact .step rfl (.refl _)
      · simp only [if_neg hfull] at hq₁ ⊢
        refine .step rfl ?_
        have hnext := ih (s := ⟨{ q₁ with head := memHeadLen }, .test1Head, b, data, get, pushed,
          popped⟩) rfl hq₁
        unfold RaceSt.returned at hnext ⊢
        rw [← hcnt]
        exact hnext
    refine .step rfl ?_
    unfold pushAgain at h
    by_cases hle : q.tail ≤ q.head
    · refine .step rfl ?_
      simp only [if_pos hle] at h ⊢
      refine .step rfl ?_
      by_cases hend : q.len ≤ q.head + b.len.toInt
      · simp only [if_pos hend] at h ⊢
        refine .step rfl ?_
        by_cases hfit : q.head + blkHeadLen ≤ q.len
        · simp only [if_pos hfit] at h ⊢
          exact .step rfl (.step rfl (hstart q.writeAlign rfl h))
        · simp only [if_neg hfit] at h ⊢
          exact hstart q rfl h
      · simp only [if_neg hend] at h ⊢
        exact append_alone rfl h
    · have hlt : q.head < q.tail := by omega
      refine .step rfl ?_
      simp only [if_neg hle, if_pos hlt] at h ⊢
      refine .step rfl (.step rfl ?_)
      simp only [if_pos hlt]
      refine .step rfl (.step rfl ?_)
      by_cases hfull : q.tail ≤ q.head + b.len.toInt
      · simp only [if_pos hfull] at h ⊢
        cases h
        exact .step rfl (.refl _)
      · simp only [if_neg hfull] at h ⊢
        exact append_alone rfl h

/-- **Uninterrupted, the producer's steps are `mq_push`.** -/
theorem mqPush_alone {s : RaceSt} (hpc : s.push = .test1Head) {r : Int} {q' : MemQueue}
    (h : mqPush s.q s.b s.data = some (r, q')) :
    Repeat raceStep .producer s (s.returned r q') :=
  pushAgain_alone 2 hpc h

/-- The state after an `mq_get` that answered `p` and left the queue `q'`. -/
def RaceSt.answered (s : RaceSt) (p : Option Int) (q' : MemQueue) : RaceSt :=
  { s with q := q', get := p.elim .idle .got }

/-- A get from its first comparison on. -/
theorem getAgain_alone (n : Nat) {s : RaceSt} (hpc : s.get = .fullHead) {p : Option Int}
    {q' : MemQueue} (h : getAgain n s.q = some (p, q')) :
    Repeat raceStep .consumer s (s.answered p q') := by
  induction n generalizing s with
  | zero => cases h
  | succ n ih =>
    unfold getAgain at h
    refine .step (m := { s with get := .fullTail s.q.head }) (by simp [raceStep, getStep, hpc]) ?_
    by_cases hlt : s.q.tail < s.q.head
    · refine .step (m := { s with get := .fitHead }) (by simp [raceStep, getStep, hlt]) ?_
      rw [if_pos hlt] at h
      refine .step rfl ?_
      by_cases hfit : s.q.tail + blkHeadLen ≤ s.q.head
      · refine .step (m := { s with get := .flatTail }) (by simp [raceStep, getStep, hfit]) ?_
        rw [if_pos hfit] at h
        cases h
        exact .step rfl (.refl _)
      · refine .step (m := { s with get := .idle }) (by simp [raceStep, getStep, hfit]) ?_
        rw [if_neg hfit] at h
        cases h
        exact .refl _
    refine .step (m := { s with get := .wrapHead }) (by simp [raceStep, getStep, hlt]) ?_
    rw [if_neg hlt] at h
    refine .step rfl ?_
    by_cases hlt' : s.q.head < s.q.tail
    · refine .step (m := { s with get := .endTail }) (by simp [raceStep, getStep, hlt']) ?_
      rw [if_pos hlt'] at h
      by_cases hshort : s.q.len < s.q.tail + blkHeadLen
      · -- too short for a header: rewind, and look again
        refine .step (m := { s with get := .rewind }) (by simp [raceStep, getStep, hshort]) ?_
        rw [if_pos hshort] at h
        exact .step rfl (ih rfl h)
      · refine .step (m := { s with get := .typeTail }) (by simp [raceStep, getStep, hshort]) ?_
        rw [if_neg hshort] at h
        by_cases htype : (MemBlock.decode (s.q.mem.ptr s.q.blkTail)).type
            = MemBlockType.blkAlign.code
        · -- a mark: rewind, and look again
          refine .step (m := { s with get := .rewind }) (by simp [raceStep, getStep, htype]) ?_
          rw [if_pos htype] at h
          exact .step rfl (ih rfl h)
        · refine .step (m := { s with get := .got s.q.blkTail })
            (by simp [raceStep, getStep, htype]) ?_
          rw [if_neg htype] at h
          cases h
          exact .refl _
    · refine .step (m := { s with get := .idle }) (by simp [raceStep, getStep, hlt']) ?_
      rw [if_neg hlt'] at h
      cases h
      exact .refl _

/-- **Uninterrupted, the consumer's steps are `mq_get`.** -/
theorem mqGet_alone {s : RaceSt} (hpc : s.get = .fullHead) {p : Option Int} {q' : MemQueue}
    (h : mqGet s.q = some (p, q')) : Repeat raceStep .consumer s (s.answered p q') :=
  getAgain_alone 2 hpc h

/-- **Uninterrupted, the consumer's steps are `mq_pop`.** -/
theorem mqPop_alone {s : RaceSt} {p : Int} (hpc : s.get = .got p) :
    Repeat raceStep .consumer s
      { s with
        q := { mqPop s.q with blkCnt := s.q.blkCnt }
        get := .idle
        popped := s.popped ++ [blkAt (s.q.mem.ptr s.q.tail)] } := by
  rcases s with ⟨q, push, b, data, get, pushed, popped⟩
  cases hpc
  exact .step rfl (.step rfl (.step rfl (.refl _)))

/-! ## What is to hold -/

/-- The block of a push that has published `head` and not returned yet. -/
def RaceSt.inflight (s : RaceSt) : List Blk :=
  match s.push with
  | .ret _ true => [s.b.withData s.data]
  | _ => []

/-- The popped blocks and the stored ones are the pushed ones, in order. -/
def Conserved (s : RaceSt) : Prop :=
  ∃ stored, Rep s.q stored ∧ s.popped ++ stored = s.pushed ++ s.inflight

/-- The producer stands between the two comparisons of `mq_push`: it has found
`head` below `tail`, and is to find that out again. -/
def BetweenTests : PushPc → Prop
  | .test2Head | .test2Tail _ => True
  | _ => False

/-- The condition on a step: the consumer does not rewind `tail` while the
producer stands between its two comparisons. -/
def NoRewindBetween : RaceLbl → RaceSt → Prop
  | .consumer, s => s.get = .rewind → ¬ BetweenTests s.push
  | _, _ => True

instance : ∀ pc, Decidable (BetweenTests pc)
  | .test2Head | .test2Tail _ => isTrue trivial
  | .idle | .test1Head | .test1Tail _ | .endHead | .alignHead | .alignType | .alignLen _
  | .startTail | .wrapStore | .roomHead | .roomTail _ | .copy | .bumpLoad | .bumpStore _
  | .ret _ _ => isFalse id

instance : ∀ l s, Decidable (NoRewindBetween l s)
  | .consumer, s => inferInstanceAs (Decidable (s.get = .rewind → ¬ BetweenTests s.push))
  | .call _ _, _ | .producer, _ => isTrue trivial

end SServer.Queue
