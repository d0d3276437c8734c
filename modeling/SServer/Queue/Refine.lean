import SServer.Lib.Fifo
import SServer.Queue.Rep

/-!
# SServer.Queue.Refine — one party at a time, the ring is a FIFO queue

First one spec lemma for each of `mq_push`, `mq_get` and `mq_pop`: on a ring
that holds a list of blocks the call returns, and what it leaves holds the list
a FIFO queue would. Then the runs: `seqStep` makes one call at a time and
records what the caller saw, and every record it can produce is a run of the
abstract queue `fifoStep`.

* `mqPush_spec`: `mq_push` returns, and appends exactly when it returns `0`.
* `mqGet_spec`, `mqPop_spec`: `mq_get` keeps the contents and answers the place of the oldest
  block; `mq_pop` removes it.
* `mq_refines_fifo`: every run of calls returns, and is a run of the abstract queue.

One call runs at a time, and `mq_pop` is only called behind an `mq_get` that found a block, as
both callers do. When a push is refused is the subject of `SServer.Queue.Drained`.
-/

namespace SServer.Queue

open SServer.Lib

/-! ## The operations -/

/-- A block that finds room is the last of the list. -/
theorem append_spec {q : MemQueue} {bs : List Blk} (h : Rep q bs) {b : MemBlock}
    (hb : b.Pushable) (hroom : Room q b.len.toInt) (data : Mem) :
    ∃ q', q.append b data = some (0, q') ∧ q'.len = q.len ∧ q'.tail = q.tail ∧
      Rep q' (bs ++ [b.withData data]) := by
  have hcopy := h.copyBlk hb hroom data
  have hblk := blkAt_copyBlk q b data
  have hpub := hcopy.publish (b := b.withData data) hblk hb hroom
  unfold MemQueue.append
  rw [if_neg (by have := hb.1; omega)]
  exact ⟨_, rfl, rfl, rfl, hpub.blkCnt _⟩

/-- `mq_push` on a wrapped ring: the block fits below `tail`, or the queue is full. -/
theorem pushAgain_wrapped {q : MemQueue} {bs : List Blk} (h : Rep q bs) (hlt : q.head < q.tail)
    {b : MemBlock} (hb : b.Pushable) (data : Mem) (n : Nat) :
    ∃ r q', pushAgain (n + 1) q b data = some (r, q') ∧ q'.len = q.len ∧
      ((r = 0 ∧ Rep q' (bs ++ [b.withData data])) ∨ (r = -1 ∧ Rep q' bs)) := by
  unfold pushAgain
  rw [if_neg (by omega), if_pos hlt]
  by_cases hfull : q.tail ≤ q.head + b.len.toInt
  · rw [if_pos hfull]
    exact ⟨-1, q, rfl, rfl, Or.inr ⟨rfl, h⟩⟩
  · rw [if_neg hfull]
    obtain ⟨q', hq', hlen, _, hrep⟩ := append_spec h hb (Or.inr ⟨hlt, by omega⟩) data
    exact ⟨0, q', hq', hlen, Or.inl ⟨rfl, hrep⟩⟩

/-- **`mq_push`** returns, and appends exactly when it returns `0`. -/
theorem mqPush_spec {q : MemQueue} {bs : List Blk} (h : Rep q bs) {b : MemBlock}
    (hb : b.Pushable) (data : Mem) :
    ∃ r q', mqPush q b data = some (r, q') ∧ q'.len = q.len ∧
      ((r = 0 ∧ Rep q' (bs ++ [b.withData data])) ∨ (r = -1 ∧ Rep q' bs)) := by
  unfold mqPush
  by_cases hlt : q.head < q.tail
  · exact pushAgain_wrapped h hlt hb data 1
  have hle : q.tail ≤ q.head := by omega
  unfold pushAgain
  rw [if_pos hle]
  by_cases hend : q.len ≤ q.head + b.len.toInt
  swap
  · -- the block fits behind `head`
    rw [if_neg hend]
    obtain ⟨q', hq', hlen, _, hrep⟩ := append_spec h hb (Or.inl ⟨hle, by omega⟩) data
    exact ⟨0, q', hq', hlen, Or.inl ⟨rfl, hrep⟩⟩
  rw [if_pos hend]
  rcases h.mark hle with ⟨q', hq', hrep, htail, hhead, hlen, hgap⟩
  simp only [hq']
  by_cases hfull : memHeadLen = q'.tail
  · rw [if_pos hfull]
    exact ⟨-1, q', rfl, hlen, Or.inr ⟨rfl, hrep⟩⟩
  · rw [if_neg hfull]
    have hwrap := hrep.wrap (by omega) hgap hfull
    have hb' := hrep.bounds
    obtain ⟨r, q'', hr, hlen', hres⟩ :=
      pushAgain_wrapped hwrap (by simp only; omega) hb data 0
    exact ⟨r, q'', hr, hlen'.trans hlen, hres⟩

/-- A push leaves a ring, whatever it returns. -/
theorem mqPush_ring {q q' : MemQueue} (h : ∃ bs, Rep q bs) {b : MemBlock} (hb : b.Pushable)
    {data : Mem} {r : Int} (hpush : mqPush q b data = some (r, q')) : ∃ bs, Rep q' bs := by
  rcases h with ⟨bs, hrep⟩
  rcases mqPush_spec hrep hb data with ⟨r', q'', hr, _, ⟨_, hrep'⟩ | ⟨_, hrep'⟩⟩
  · cases hpush.symm.trans hr
    exact ⟨_, hrep'⟩
  · cases hpush.symm.trans hr
    exact ⟨_, hrep'⟩

/-- A queue that is in order. -/
def Ring : Type := { q : MemQueue // ∃ bs, Rep q bs }

/-- A fresh one. -/
def ringInit (size : Int) (h : memHeadLen < size) : Ring := ⟨mqInit size, [], rep_init h⟩

/-- `mq_push` of a block that may be pushed. -/
def ringPush (q : Ring) (b : MemBlock) (data : Mem) : Option (Int × Ring) :=
  if hb : b.Pushable then
    match h : mqPush q.1 b data with
    | none => none
    | some (r, q') => some (r, ⟨q', mqPush_ring q.2 hb h⟩)
  else none

/-- **`mq_push` comes back** from a ring that is in order. -/
theorem ringPush_returns (q : Ring) {b : MemBlock} (hb : b.Pushable) (data : Mem) :
    ringPush q b data ≠ none := by
  rcases q.2 with ⟨bs, hrep⟩
  rcases mqPush_spec hrep hb data with ⟨r, q', hpush, _⟩
  unfold ringPush
  rw [dif_pos hb]
  split
  · next hnone => cases hpush.symm.trans hnone
  · simp

/-- `mq_get` on a flat ring answers at once. -/
theorem getAgain_flat {q : MemQueue} {bs : List Blk} (h : Rep q bs) (hle : q.tail ≤ q.head)
    (n : Nat) : ∃ p, getAgain (n + 1) q = some (p, q) ∧
      ((p = none ∧ q.head = q.tail) ∨ (p = some q.tail ∧ AtBlock q)) := by
  unfold getAgain
  by_cases hlt : q.tail < q.head
  · rw [if_pos hlt, if_pos (h.head_fits hlt)]
    exact ⟨_, rfl, Or.inr ⟨rfl, Or.inl hlt⟩⟩
  · rw [if_neg hlt, if_neg (by omega)]
    exact ⟨_, rfl, Or.inl ⟨rfl, by omega⟩⟩

/-- **`mq_get`** returns, keeps the contents, and answers `NULL` on an empty
ring and the place of the oldest block on any other. -/
theorem mqGet_spec {q : MemQueue} {bs : List Blk} (h : Rep q bs) :
    ∃ p q', mqGet q = some (p, q') ∧ q'.len = q.len ∧ q'.mem = q.mem ∧ Rep q' bs ∧
      ((p = none ∧ bs = []) ∨ (p = some q'.tail ∧ AtBlock q')) := by
  have hflat : ∀ (q' : MemQueue) (n : Nat), Rep q' bs → q'.tail ≤ q'.head →
      ∃ p, getAgain (n + 1) q' = some (p, q') ∧
        ((p = none ∧ bs = []) ∨ (p = some q'.tail ∧ AtBlock q')) := by
    intro q' n h' hle
    obtain ⟨p, hp, hres⟩ := getAgain_flat h' hle n
    rcases hres with ⟨hnone, heq⟩ | hsome
    · exact ⟨p, hp, Or.inl ⟨hnone, h'.eq_nil heq⟩⟩
    · exact ⟨p, hp, Or.inr hsome⟩
  unfold mqGet
  by_cases hle : q.tail ≤ q.head
  · obtain ⟨p, hp, hres⟩ := hflat q 1 h hle
    exact ⟨p, q, hp, rfl, rfl, h, hres⟩
  have hlt : q.head < q.tail := by omega
  have hb := h.bounds
  unfold getAgain
  rw [if_neg (by omega), if_pos hlt]
  -- the two reasons to rewind lead to the same second pass
  by_cases hend : AtEnd q
  · have hrew := h.rewind hend
    obtain ⟨p, hp, hres⟩ := hflat _ 0 hrew hb.1
    refine ⟨p, { q with tail := memHeadLen }, ?_, rfl, rfl, hrew, hres⟩
    by_cases hshort : q.len < q.tail + blkHeadLen
    · rw [if_pos hshort]
      exact hp
    · rw [if_neg hshort, MemQueue.blkTail, if_pos (hend.2 (by omega))]
      exact hp
  · have hfit : q.tail + blkHeadLen ≤ q.len := by
      by_contra hshort
      exact hend ⟨hlt, fun hfit => absurd hfit hshort⟩
    have htype : (MemBlock.decode (q.mem.ptr q.tail)).type ≠ MemBlockType.blkAlign.code :=
      fun heq => hend ⟨hlt, fun _ => heq⟩
    rw [if_neg (by omega), MemQueue.blkTail, if_neg htype]
    exact ⟨_, q, rfl, rfl, rfl, h, Or.inr ⟨rfl, Or.inr ⟨hlt, hfit, htype⟩⟩⟩

/-- **`mq_pop`** after an `mq_get` that found a block removes that block. -/
theorem mqPop_spec {q : MemQueue} {bs : List Blk} (h : Rep q bs) (hat : AtBlock q) :
    ∃ b rest, bs = b :: rest ∧ blkAt (q.mem.ptr q.tail) = b ∧ Rep (mqPop q) rest := by
  obtain ⟨b, rest, hbs, hb, _, hrep⟩ := h.step_over hat
  refine ⟨b, rest, hbs, hb, ?_⟩
  have hlen : (MemBlock.decode (q.mem.ptr q.blkTail)).len = b.head.len := by rw [← hb]; rfl
  unfold mqPop
  rw [hlen]
  exact hrep.blkCnt _

/-! ## Runs of calls -/

/-- A call on the queue. -/
inductive Call where
  | push (b : MemBlock) (data : Mem)
  | get
  | pop

/-- A queue between two calls: the ring, whether the last call was an `mq_get`
that returned a block, and what the caller has seen so far. -/
structure SeqSt where
  q : MemQueue
  got : Bool
  seen : List (FifoEv Blk)

/-- The state after `mq_init`. -/
def seqInit (size : Int) : SeqSt := { q := mqInit size, got := false, seen := [] }

/-- The calls a caller may make: blocks as `mq_push` wants them, and `mq_pop`
only for the block that the last `mq_get` returned. -/
def Allowed : Call → SeqSt → Prop
  | .push b _, _ => b.Pushable
  | .get, _ => True
  | .pop, s => s.got = true

instance : ∀ (c : Call) (s : SeqSt), Decidable (Allowed c s)
  | .push b _, _ => inferInstanceAs (Decidable b.Pushable)
  | .get, _ => inferInstanceAs (Decidable True)
  | .pop, s => inferInstanceAs (Decidable (s.got = true))

/-- One call and what its caller sees of it. -/
def callStep : Call → SeqSt → Option SeqSt
  | .push b data, s => (mqPush s.q b data).map fun (r, q') =>
      { q := q', got := false, seen := s.seen ++ [.push (b.withData data) (decide (r = 0))] }
  | .get, s => (mqGet s.q).map fun (p, q') =>
      { q := q', got := p.isSome
        seen := s.seen ++ [.get (p.map fun pos => blkAt (q'.mem.ptr pos))] }
  | .pop, s => some { q := mqPop s.q, got := false, seen := s.seen ++ [.pop] }

/-- An allowed call; `none` also when the call does not return. -/
def seqStep (c : Call) (s : SeqSt) : Option SeqSt :=
  if Allowed c s then callStep c s else none

/-- The ring holds the list the abstract queue would hold after the same events. -/
def SeqInv (s : SeqSt) : Prop :=
  ∃ bs, exec fifoStep s.seen [] = some bs ∧ Rep s.q bs ∧ (s.got = true → AtBlock s.q)

/-- One allowed call returns and is an event of the abstract queue. -/
theorem callStep_inv {c : Call} {s : SeqSt} (hinv : SeqInv s) (hc : Allowed c s) :
    ∃ t, callStep c s = some t ∧ SeqInv t := by
  obtain ⟨bs, hseen, hrep, hgot⟩ := hinv
  cases c with
  | push b data =>
    obtain ⟨r, q', hpush, _, hres⟩ := mqPush_spec hrep hc data
    refine ⟨_, by simp only [callStep, hpush, Option.map_some]; rfl, ?_⟩
    rcases hres with ⟨rfl, hrep'⟩ | ⟨rfl, hrep'⟩
    · exact ⟨_, exec_concat hseen rfl, hrep', by simp⟩
    · exact ⟨_, exec_concat hseen rfl, hrep', by simp⟩
  | get =>
    obtain ⟨p, q', hget, _, _, hrep', hres⟩ := mqGet_spec hrep
    refine ⟨_, by simp only [callStep, hget, Option.map_some]; rfl, ?_⟩
    rcases hres with ⟨rfl, rfl⟩ | ⟨rfl, hat⟩
    · exact ⟨_, exec_concat hseen rfl, hrep', by simp⟩
    · obtain ⟨b, rest, rfl, hb, _⟩ := mqPop_spec hrep' hat
      refine ⟨_, exec_concat hseen ?_, hrep', fun _ => hat⟩
      simp [fifoStep, hb]
  | pop =>
    obtain ⟨b, rest, rfl, _, hrep'⟩ := mqPop_spec hrep (hgot hc)
    exact ⟨_, rfl, _, exec_concat hseen rfl, hrep', by simp⟩

/-- **One call** keeps the record a run of the queue, and the ring what that run leaves. -/
theorem seqStep_inv (c : Call) (s t : SeqSt) (hinv : SeqInv s) (h : seqStep c s = some t) :
    SeqInv t := by
  unfold seqStep at h
  by_cases hc : Allowed c s
  · rw [if_pos hc] at h
    obtain ⟨t', ht', hinv'⟩ := callStep_inv hinv hc
    rw [ht'] at h
    cases h
    exact hinv'
  · rw [if_neg hc] at h
    cases h

/-- **The ring refines a FIFO queue.** Whatever calls are made, one at a time,
on a queue that `mq_init` set up, every allowed next call returns, what the
callers have seen is a run of the abstract FIFO queue, and the list that queue
holds is what the ring holds: the blocks whose push returned `0`, less the
popped ones. -/
theorem mq_refines_fifo {size : Int} (hsize : memHeadLen < size) {cs : List Call} {s : SeqSt}
    (hrun : exec seqStep cs (seqInit size) = some s) :
    (∀ c, Allowed c s → (seqStep c s).isSome) ∧
    ∃ bs, exec fifoStep s.seen [] = some bs ∧ bs = (accepted s.seen).drop (popCount s.seen) ∧
      Rep s.q bs := by
  have hinv : SeqInv s := by
    refine exec_invariant' _ seqStep_inv ?_ hrun
    exact ⟨[], rfl, rep_init hsize, by simp [seqInit]⟩
  constructor
  · intro c hc
    obtain ⟨t, ht, _⟩ := callStep_inv hinv hc
    rw [seqStep, if_pos hc, ht]
    rfl
  · obtain ⟨bs, hseen, hrep, _⟩ := hinv
    exact ⟨bs, hseen, by simpa using fifo_contents s.seen [] bs hseen, hrep⟩

/-- The push of a block of `len` bytes, whose payload starts with the bytes of `5`. -/
def pushOf (fd len : Int32) : Call :=
  .push ⟨0, fd, MemBlockType.blkData.code, len⟩ (storeLe32 5)

/-- Four blocks through a ring of 64 bytes. The first two fill it up to its end; when the
first has been removed the third is refused, and the fourth goes to the front of the ring,
where the consumer finds it behind the second. -/
def wrapRun : List Call :=
  [pushOf 1 24, pushOf 2 24, .get, .pop, pushOf 3 24, pushOf 4 20, .get, .pop, .get]

/-- The run wraps around the ring and has one push refused; the ring holds what was accepted
less what was removed. -/
theorem mq_refines_fifo_wrapRun :
    ∃ s bs, exec seqStep wrapRun (seqInit 64) = some s ∧
      (accepted s.seen).map (fun b => b.head.fd) = [1, 2, 4] ∧ popCount s.seen = 2 ∧
      exec fifoStep s.seen [] = some bs ∧ bs = (accepted s.seen).drop (popCount s.seen) ∧
      Rep s.q bs := by
  have hsome : (exec seqStep wrapRun (seqInit 64)).isSome := by decide +kernel
  have hfacts : ∀ s ∈ exec seqStep wrapRun (seqInit 64),
      (accepted s.seen).map (fun b => b.head.fd) = [1, 2, 4] ∧ popCount s.seen = 2 := by
    decide +kernel
  rcases Option.isSome_iff_exists.mp hsome with ⟨s, hrun⟩
  have hsize : memHeadLen < 64 := by decide
  rcases mq_refines_fifo hsize hrun with ⟨_, bs, hseen, hbs, hrep⟩
  rcases hfacts s hrun with ⟨htaken, hpops⟩
  exact ⟨s, bs, hrun, htaken, hpops, hseen, hbs, hrep⟩

end SServer.Queue
