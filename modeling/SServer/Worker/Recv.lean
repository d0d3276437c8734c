import SServer.Queue.Refine

/-!
# SServer.Worker.Recv — the worker's receive loop

`handle_mq_recv` handles the blocks of `rq` where they stand in the ring, and
only then steps over them, by the length that stands in the ring at that time.
The session table `fds`, the handlers `do_blk_msg`, `do_blk_open` and
`do_blk_close`, and `close_cli` are those of the source; the callbacks of the
loaded object, which may send to clients, close them and write over the payload
they are given, are arbitrary. Of `sq` only its `mq_push` is known.

The result: an iteration removes exactly the oldest block, whatever ring it
stands in, if and only if the block is not a `BLK_OPEN` that is rejected with a
length other than that of a bare header. In a run whose iterations all meet the
condition, the blocks decoded are the blocks pushed.

* `handleBlk_ring`: what a handler leaves of the ring.
* `recvOne_spec`: an iteration: it returns, has decoded the oldest block, and steps over it by
  the length it finds.
* `recvOne_removes_iff`: which blocks are removed as a whole, on every ring.
* `recv_removes_oldest_iff`: the result, for one iteration and for whole runs.
* `openedTwice_decodes_garbage`: a descriptor that is opened twice: the next block found was
  never pushed.

The callbacks are functions of what they are given. That a block of `rq` is what the master
pushed is `SServer.Queue`; which blocks come is `SServer.Proto`.
-/

namespace SServer.Worker

open SServer.Lib SServer.Queue

/-! ## The session table -/

/-- `fdsess_t`. -/
structure FdSess where
  fd : Int32
  id : Int32
  ip : Int32
  port : Int32
deriving DecidableEq

/-- The table of `fds.c`, here for any kind of entry. -/
abbrev Fds (S : Type) := Int32 → Option S

variable {S : Type}

/-- `get_fd`. -/
def getFd (fds : Fds S) (fd : Int32) : Option S := fds fd

/-- `save_fd`; the key is the `fd` of the entry. -/
def saveFd (fds : Fds S) (fd : Int32) (sess : S) : Fds S := Function.update fds fd (some sess)

/-- `remove_fd`. -/
def removeFd (fds : Fds S) (fd : Int32) : Fds S := Function.update fds fd none

/-- The entry that `do_blk_open` makes of a block and the `fd_addr_t` behind it:
a `uint32_t` and a `uint16_t`, packed. -/
def openSess (blk : MemBlock) (addr : Mem) : FdSess :=
  { fd := blk.fd
    id := blk.id
    ip := loadLe32 addr
    port := Int32.ofInt ((addr 4).toNat + 256 * (addr 5).toNat) }

/-- `sizeof(fd_addr_t)`. -/
def fdAddrLen : Int := 6

/-! ## The handlers -/

variable {Q : Type}

/-- What the handlers work on besides the block: the session table and `sq`. -/
structure Desk (Q : Type) where
  fds : Fds FdSess
  sq : Q

/-- The callbacks of the loaded object. `procCliMsg` gets the payload in place:
its answer is the return value and the bytes it leaves there. Both may call
`send_to_cli` and `close_cli`. -/
structure So (Q : Type) where
  procCliMsg : List UInt8 → FdSess → Desk Q → Int × Mem × Desk Q
  onCliClosed : Int32 → Desk Q → Desk Q

/-- The `mq_push` of a queue that always returns. -/
abbrev SqPush (Q : Type) := Q → MemBlock → Mem → Int × Q

/-- `NULL` as the payload of a block that has none. -/
def nullData : Mem := fun _ => 0

/-- `do_blk_close`. -/
def doBlkClose (so : So Q) (fd : Int32) (w : Desk Q) : Int × Desk Q :=
  match getFd w.fds fd with
  | none => (-1, w)
  | some _ =>
    let w := so.onCliClosed fd w
    (0, { w with fds := removeFd w.fds fd })

/-- `close_cli`. -/
def closeCli (so : So Q) (push : SqPush Q) (fd : Int32) (w : Desk Q) : Desk Q :=
  match getFd w.fds fd with
  | none => w
  | some sess =>
    let blk : MemBlock :=
      { id := sess.id, fd := fd, type := MemBlockType.blkClose.code, len := Int32.ofInt blkHeadLen }
    (doBlkClose so blk.fd { w with sq := (push w.sq blk nullData).2 }).2

/-- `do_blk_msg` on the block behind `p`, with the bytes left in its payload. -/
def doBlkMsg (so : So Q) (push : SqPush Q) (p : Mem) (w : Desk Q) : Mem × Desk Q :=
  let blk := blkAt p
  let data := p.ptr blkHeadLen
  if blk.head.len.toInt < blkHeadLen then (data, w)
  else
    match getFd w.fds blk.head.fd with
    | none => (data, w)
    | some sess =>
      match so.procCliMsg blk.payload sess w with
      | (r, data, w) => if r ≠ 0 then (data, closeCli so push blk.head.fd w) else (data, w)

/-- `do_blk_open` on the block behind `p`. -/
def doBlkOpen (p : Mem) (w : Desk Q) : Int × Desk Q :=
  let blk := MemBlock.decode p
  if (getFd w.fds blk.fd).isSome = true ∨ blk.len.toInt ≠ blkHeadLen + fdAddrLen then (-1, w)
  else
    let sess := openSess blk (p.ptr blkHeadLen)
    (0, { w with fds := saveFd w.fds sess.fd sess })

/-! ## The loop -/

/-- A worker: its `rq`, its session table and its `sq`. -/
structure WorkSt (Q : Type) where
  rq : MemQueue
  desk : Desk Q

/-- The `switch` of `handle_mq_recv` on the block at `tmpblk`. -/
def handleBlk (so : So Q) (push : SqPush Q) (tmpblk : Int) (s : WorkSt Q) : WorkSt Q :=
  let p := s.rq.mem.ptr tmpblk
  let blk := MemBlock.decode p
  if blk.type = MemBlockType.blkData.code then
    match doBlkMsg so push p s.desk with
    | (data, w) =>
      let mem := memcpy s.rq.mem (tmpblk + blkHeadLen) data (blk.len.toInt - blkHeadLen)
      { rq := { s.rq with mem := mem }, desk := w }
  else if blk.type = MemBlockType.blkOpen.code then
    match doBlkOpen p s.desk with
    | (r, w) =>
      if r = -1 then
        -- `tmpblk->len = sizeof(mem_block_t)`
        let rq := (s.rq.setType tmpblk .blkClose).setLen tmpblk blkHeadLen
        let sq := (push w.sq (MemBlock.decode (rq.mem.ptr tmpblk)) nullData).2
        { rq := rq, desk := { w with sq := sq } }
      else { s with desk := w }
  else if blk.type = MemBlockType.blkClose.code then
    { s with desk := (doBlkClose so blk.fd s.desk).2 }
  else s

/-- One iteration of `handle_mq_recv`; `none` when the queue is empty. -/
def recvOne (so : So Q) (push : SqPush Q) (s : WorkSt Q) : Option (WorkSt Q) :=
  match mqGet s.rq with
  | some (some tmpblk, rq) =>
    let s := handleBlk so push tmpblk { s with rq := rq }
    some { s with rq := mqPop s.rq }
  | _ => none

/-! ## What an iteration does to the ring -/

/-- `do_blk_open` rejects the block. -/
def Rejected (fds : Fds FdSess) (b : MemBlock) : Prop :=
  b.type = MemBlockType.blkOpen.code ∧
    ((getFd fds b.fd).isSome = true ∨ b.len.toInt ≠ blkHeadLen + fdAddrLen)

/-- The block is rejected, and what is stored in its `len` is not its length. -/
def Mislabelled (fds : Fds FdSess) (b : MemBlock) : Prop :=
  Rejected fds b ∧ b.len.toInt ≠ blkHeadLen

instance (fds : Fds FdSess) (b : MemBlock) : Decidable (Rejected fds b) :=
  inferInstanceAs (Decidable (_ ∧ _))

instance (fds : Fds FdSess) (b : MemBlock) : Decidable (Mislabelled fds b) :=
  inferInstanceAs (Decidable (_ ∧ _))

/-- `do_blk_open` returns `-1` for the blocks it rejects only. -/
theorem doBlkOpen_ret (p : Mem) (w : Desk Q)
    (htype : (MemBlock.decode p).type = MemBlockType.blkOpen.code) :
    (doBlkOpen p w).1 = -1 ↔ Rejected w.fds (MemBlock.decode p) := by
  unfold doBlkOpen Rejected
  by_cases hrej : (getFd w.fds (MemBlock.decode p).fd).isSome = true ∨
      (MemBlock.decode p).len.toInt ≠ blkHeadLen + fdAddrLen
  · simp only [if_pos hrej]
    exact ⟨fun _ => ⟨htype, hrej⟩, fun _ => trivial⟩
  · simp only [if_neg hrej]
    exact ⟨fun h => absurd h (by decide), fun h => absurd h.2 hrej⟩

/-- **What a handler leaves of the ring**: every byte outside the block, and the
block's length too unless the block was rejected. -/
theorem handleBlk_ring (so : So Q) (push : SqPush Q) (pos : Int) (s : WorkSt Q)
    (hlen : blkHeadLen ≤ (MemBlock.decode (s.rq.mem.ptr pos)).len.toInt) :
    ∃ mem, (handleBlk so push pos s).rq = { s.rq with mem := mem } ∧
      (∀ a, a < pos ∨ pos + (MemBlock.decode (s.rq.mem.ptr pos)).len.toInt ≤ a →
        s.rq.mem a = mem a) ∧
      (MemBlock.decode (mem.ptr pos)).len.toInt =
        if Rejected s.desk.fds (MemBlock.decode (s.rq.mem.ptr pos)) then blkHeadLen
        else (MemBlock.decode (s.rq.mem.ptr pos)).len.toInt := by
  simp only [blkHeadLen] at hlen
  unfold handleBlk
  simp only
  by_cases hdata : (MemBlock.decode (s.rq.mem.ptr pos)).type = MemBlockType.blkData.code
  · -- the payload is written over
    have hno : ¬ Rejected s.desk.fds (MemBlock.decode (s.rq.mem.ptr pos)) := by
      rintro ⟨htype, _⟩
      rw [hdata] at htype
      exact absurd htype (by decide)
    rw [if_pos hdata, if_neg hno]
    refine ⟨_, rfl, fun a ha => ?_, ?_⟩
    · simp only [blkHeadLen]
      rw [memcpy_out (by omega)]
    · congr 2
      refine (decode_congr fun i h0 hi => ?_).symm
      rw [Mem.ptr_apply, Mem.ptr_apply, memcpy_out (by omega)]
  rw [if_neg hdata]
  by_cases hopen : (MemBlock.decode (s.rq.mem.ptr pos)).type = MemBlockType.blkOpen.code
  · rw [if_pos hopen]
    have hret := doBlkOpen_ret (s.rq.mem.ptr pos) s.desk hopen
    by_cases hrej : Rejected s.desk.fds (MemBlock.decode (s.rq.mem.ptr pos))
    · -- the header is edited
      rw [if_pos (hret.mpr hrej), if_pos hrej]
      refine ⟨((s.rq.setType pos .blkClose).setLen pos blkHeadLen).mem, rfl, fun a ha => ?_, ?_⟩
      · rw [setLen_mem _ (by omega), setType_mem _ _ (by omega)]
      · rw [setLen_len]
        decide
    · rw [if_neg fun h => hrej (hret.mp h), if_neg hrej]
      exact ⟨_, rfl, fun _ _ => rfl, rfl⟩
  have hno : ¬ Rejected s.desk.fds (MemBlock.decode (s.rq.mem.ptr pos)) := fun h => hopen h.1
  rw [if_neg hopen, if_neg hno]
  by_cases hclose : (MemBlock.decode (s.rq.mem.ptr pos)).type = MemBlockType.blkClose.code
  · rw [if_pos hclose]
    exact ⟨_, rfl, fun _ _ => rfl, rfl⟩
  · rw [if_neg hclose]
    exact ⟨_, rfl, fun _ _ => rfl, rfl⟩

/-- **An iteration on a ring that holds a block**: it returns, has decoded that
block, and steps over it, by the length of a bare header when it was rejected. -/
theorem recvOne_spec (so : So Q) (push : SqPush Q) {s : WorkSt Q} {b : Blk} {bs : List Blk}
    (h : Rep s.rq (b :: bs)) :
    ∃ rq mem t, mqGet s.rq = some (some rq.tail, rq) ∧ blkAt (rq.mem.ptr rq.tail) = b ∧
      AtBlock rq ∧ Rep rq (b :: bs) ∧ recvOne so push s = some t ∧
      (∀ a, a < rq.tail ∨ rq.tail + b.head.len.toInt ≤ a → rq.mem a = mem a) ∧
      t.rq = { rq with
        mem := mem
        tail := rq.tail +
          if Rejected s.desk.fds b.head then blkHeadLen else b.head.len.toInt
        blkCnt := rq.blkCnt - 1 } := by
  rcases mqGet_spec h with ⟨p, rq, hget, _, _, hrep, ⟨_, hnil⟩ | ⟨hp, hat⟩⟩
  · cases hnil
  rcases hrep.step_over hat with ⟨b', rest, heq, hb, hpush, _⟩
  cases heq
  have hdec : MemBlock.decode (rq.mem.ptr rq.tail) = b.head := by rw [← hb, blkAt]
  rw [hp] at hget
  rcases handleBlk_ring so push rq.tail { s with rq := rq } (by rw [hdec]; exact hpush.1) with
    ⟨mem, hrq, hframe, hlen⟩
  rw [hdec] at hframe hlen
  let s' := handleBlk so push rq.tail { s with rq := rq }
  refine ⟨rq, mem, { s' with rq := mqPop s'.rq }, hget, hb, hat, hrep, ?_, hframe, ?_⟩
  · unfold recvOne
    rw [hget]
  · simp only [s', mqPop, hrq, MemQueue.blkTail, hlen]

/-- On any other block than a mislabelled one, the iteration removes the block. -/
theorem recvOne_removes (so : So Q) (push : SqPush Q) {s : WorkSt Q} {b : Blk} {bs : List Blk}
    (h : Rep s.rq (b :: bs)) (hok : ¬ Mislabelled s.desk.fds b.head) :
    ∃ t, recvOne so push s = some t ∧ Rep t.rq bs := by
  rcases recvOne_spec so push h with ⟨rq, mem, t, _, hb, hat, hrep, hone, hframe, hrq⟩
  refine ⟨t, hone, ?_⟩
  have hstep : (if Rejected s.desk.fds b.head then blkHeadLen else b.head.len.toInt)
      = b.head.len.toInt := by
    by_cases hrej : Rejected s.desk.fds b.head
    · rw [if_pos hrej]
      by_contra hne
      exact hok ⟨hrej, fun heq => hne heq.symm⟩
    · rw [if_neg hrej]
  rcases hrep.step_over hat with ⟨b', rest, heq, _, _, hrest⟩
  cases heq
  rw [hrq, hstep]
  have hpopped : Rep { rq with mem := mem, tail := rq.tail + b.head.len.toInt } bs := by
    refine hrest.write_popped (n := b.head.len.toInt) ?_ ?_
    · intro hlt
      simp only at hlt ⊢
      rcases hat with hflat | ⟨hwrap, _⟩
      · have hle := (hrep.seg_of_le (by omega)).head_le
        omega
      · omega
    · intro a ha
      simp only at ha
      exact hframe a (by omega)
  exact hpopped.blkCnt _

/-- A ring that holds one block and nothing else. -/
theorem rep_single {head : MemBlock} (hp : head.Pushable) (data : Mem) :
    ∃ rq, rq.tail = memHeadLen ∧ rq.head = memHeadLen + head.len.toInt ∧
      Rep rq [head.withData data] := by
  have hlen := hp.1
  simp only [blkHeadLen] at hlen
  let q := mqInit (memHeadLen + head.len.toInt + 1)
  have hroom : Room q head.len.toInt := by
    refine Or.inl ⟨Int.le_refl _, ?_⟩
    simp only [q, mqInit]
    omega
  have hempty : Rep q [] := by
    refine rep_init ?_
    omega
  have hcopy := hempty.copyBlk hp hroom data
  exact ⟨_, rfl, rfl, hcopy.publish (b := head.withData data) (blkAt_copyBlk q head data) hp hroom⟩

/-- **Which blocks are removed as a whole.** In every ring that holds the block
as its oldest, an iteration leaves exactly the other blocks, if and only if the
block is not mislabelled. -/
theorem recvOne_removes_iff (so : So Q) (push : SqPush Q) (fds : Fds FdSess) (sq : Q)
    {head : MemBlock} (hp : head.Pushable) (data : Mem) :
    (∀ rq bs, Rep rq (head.withData data :: bs) →
      ∃ t, recvOne so push ⟨rq, ⟨fds, sq⟩⟩ = some t ∧ Rep t.rq bs) ↔ ¬ Mislabelled fds head := by
  constructor
  · intro h hbad
    rcases rep_single hp data with ⟨rq, htail, hhead, hrep⟩
    rcases h rq [] hrep with ⟨t, hone, hempty⟩
    rcases recvOne_spec (s := ⟨rq, ⟨fds, sq⟩⟩) so push hrep with
      ⟨rq', mem, t', hget, _, _, _, hone', _, hrq⟩
    cases hone.symm.trans hone'
    -- the ring is flat, so `mq_get` leaves `tail` where it is
    have hlen := hp.1
    simp only [blkHeadLen] at hlen
    have hsame : rq' = rq := by
      rcases getAgain_flat hrep (by omega) 1 with ⟨p, hp', _⟩
      have heq := hget.symm.trans hp'
      simp only [Option.some.injEq, Prod.mk.injEq] at heq
      exact heq.2
    have hrej : Rejected fds (head.withData data).head := hbad.1
    rw [hsame, if_pos hrej] at hrq
    have htail' : t.rq.tail = rq.tail + blkHeadLen := by rw [hrq]
    have hhead' : t.rq.head = rq.head := by rw [hrq]
    have hne := hbad.2
    simp only [blkHeadLen] at hne htail'
    have hend := (hempty.seg_of_le (by omega)).eq_of_nil
    omega
  · intro hok rq bs hrep
    exact recvOne_removes so push hrep hok

/-! ## Runs -/

/-- A worker with what was pushed to its `rq` and what it has decoded there. -/
structure RecvRun (Q : Type) where
  work : WorkSt Q
  pushed : List Blk
  handled : List Blk

/-- A queue that `mq_init` set up, and a worker. -/
def recvInit (size : Int) (w : Desk Q) : RecvRun Q :=
  { work := { rq := mqInit size, desk := w }, pushed := [], handled := [] }

/-- The master pushes a block, the worker handles one, or something else happens
to the session table and to `sq`: another callback, the master's reading. -/
inductive RecvLbl (Q : Type) where
  | push (b : MemBlock) (data : Mem)
  | recv (so : So Q)
  | elsewhere (w : Desk Q)

/-- One step; the callbacks may do something else in each. -/
def recvStep (push : SqPush Q) : RecvLbl Q → RecvRun Q → Option (RecvRun Q)
  | .push b data, s =>
    if b.Pushable then
      (mqPush s.work.rq b data).map fun (r, rq) =>
        { s with
          work := { s.work with rq := rq }
          pushed := if r = 0 then s.pushed ++ [b.withData data] else s.pushed }
    else none
  | .recv so, s =>
    match mqGet s.work.rq with
    | some (some tmpblk, rq) =>
      (recvOne so push s.work).map fun w =>
        { s with work := w, handled := s.handled ++ [blkAt (rq.mem.ptr tmpblk)] }
    | _ => none
  | .elsewhere w, s => some { s with work := { s.work with desk := w } }

/-- The block that `mq_get` has found is not mislabelled. -/
def FoundOk (fds : Fds FdSess) : Option (Option Int × MemQueue) → Prop
  | some (some tmpblk, rq) => ¬ Mislabelled fds (MemBlock.decode (rq.mem.ptr tmpblk))
  | _ => True

instance (fds : Fds FdSess) : ∀ found, Decidable (FoundOk fds found)
  | some (some tmpblk, rq) =>
    inferInstanceAs (Decidable (¬ Mislabelled fds (MemBlock.decode (rq.mem.ptr tmpblk))))
  | some (none, _) => isTrue trivial
  | none => isTrue trivial

/-- The condition on a step: the oldest block is not mislabelled. -/
def RecvOk : RecvLbl Q → RecvRun Q → Prop
  | .recv _, s => FoundOk s.work.desk.fds (mqGet s.work.rq)
  | _, _ => True

instance : ∀ l s, Decidable (RecvOk (Q := Q) l s)
  | .recv _, s => inferInstanceAs (Decidable (FoundOk s.work.desk.fds (mqGet s.work.rq)))
  | .push _ _, _ => isTrue trivial
  | .elsewhere _, _ => isTrue trivial

/-- What was pushed has been handled or is in the ring, in one order. -/
def RecvInv (s : RecvRun Q) : Prop :=
  ∃ bs, Rep s.work.rq bs ∧ s.pushed = s.handled ++ bs

/-- **One step** that meets the condition keeps what was decoded in order. -/
theorem recvStep_inv (push : SqPush Q) (l : RecvLbl Q) (s t : RecvRun Q) (hinv : RecvInv s)
    (hok : RecvOk l s) (hstep : recvStep push l s = some t) : RecvInv t := by
  rcases hinv with ⟨bs, hrep, hpushed⟩
  cases l with
  | push b data =>
    simp only [recvStep] at hstep
    by_cases hb : b.Pushable
    swap
    · rw [if_neg hb] at hstep
      cases hstep
    rcases mqPush_spec hrep hb data with ⟨r, rq, hpush, _, ⟨hr, hrep'⟩ | ⟨hr, hrep'⟩⟩
    · rw [if_pos hb, hpush, hr] at hstep
      cases hstep
      exact ⟨_, hrep', by simp [hpushed]⟩
    · rw [if_pos hb, hpush, hr] at hstep
      cases hstep
      exact ⟨_, hrep', by simp [hpushed]⟩
  -- a callback: with nothing stored it pops nothing, else the oldest block
  | recv so =>
    simp only [recvStep] at hstep
    simp only [RecvOk] at hok
    cases bs with
    | nil =>
      rcases mqGet_spec hrep with ⟨p, rq, hget, _, _, hrep', ⟨hp, _⟩ | ⟨_, hat⟩⟩
      · rw [hget, hp] at hstep
        cases hstep
      · rcases hrep'.step_over hat with ⟨_, _, heq, _⟩
        cases heq
    | cons b bs =>
      rcases recvOne_spec so push hrep with ⟨rq, _, _, hget, hb, _⟩
      rw [hget] at hstep hok
      have hdec : MemBlock.decode (rq.mem.ptr rq.tail) = b.head := by rw [← hb, blkAt]
      simp only [FoundOk, hdec] at hok
      rcases recvOne_removes so push hrep hok with ⟨w, hone, hrest⟩
      simp only [hone, Option.map_some, hb] at hstep
      cases hstep
      exact ⟨bs, hrest, by simp [hpushed]⟩
  -- the rest of the worker leaves `rq` alone
  | elsewhere w =>
    cases hstep
    exact ⟨bs, hrep, hpushed⟩

/-- **Oldest first, whole blocks.** An iteration removes exactly the oldest
block of every ring, if and only if that block is not mislabelled. And in every
run whose iterations meet this condition, what the worker has decoded and what
is in the ring are together what was pushed, in order. -/
theorem recv_removes_oldest_iff {size : Int} (hsize : memHeadLen < size) (push : SqPush Q)
    (w : Desk Q) :
    (∀ (so : So Q) (fds : Fds FdSess) (sq : Q) (head : MemBlock) (data : Mem), head.Pushable →
      ((∀ rq bs, Rep rq (head.withData data :: bs) →
        ∃ t, recvOne so push ⟨rq, ⟨fds, sq⟩⟩ = some t ∧ Rep t.rq bs) ↔ ¬ Mislabelled fds head)) ∧
    ∀ (ls : List (RecvLbl Q)) (s : RecvRun Q),
      Along (recvStep push) RecvOk ls (recvInit size w) →
      exec (recvStep push) ls (recvInit size w) = some s →
      ∃ bs, Rep s.work.rq bs ∧ s.pushed = s.handled ++ bs := by
  constructor
  · intro so fds sq head data hp
    exact recvOne_removes_iff so push fds sq hp data
  · intro ls s halong hrun
    exact exec_invariant _ (recvStep_inv push) ⟨[], rep_init hsize, rfl⟩ halong hrun

/-- Callbacks that do nothing. -/
def idleSo : So (List MemBlock) :=
  { procCliMsg := fun data _ w => (0, ofBytes data, w), onCliClosed := fun _ w => w }

/-- A send queue that takes everything. -/
def listPush : SqPush (List MemBlock) := fun q b _ => (0, q ++ [b])

/-- A worker without sessions, and a ring of 128 bytes. -/
def freshWorker : RecvRun (List MemBlock) := recvInit 128 ⟨fun _ => none, []⟩

/-- `BLK_OPEN` of client 5, with its address. -/
def openFive : RecvLbl (List MemBlock) :=
  .push ⟨0, 5, MemBlockType.blkOpen.code, 19⟩ (ofBytes [127, 0, 0, 1, 80, 0])

/-- `BLK_DATA` of client 5, three bytes. -/
def dataFive : RecvLbl (List MemBlock) :=
  .push ⟨0, 5, MemBlockType.blkData.code, 16⟩ (ofBytes [65, 66, 67])

/-- A client is opened, and sends. -/
def openedOnce : List (RecvLbl (List MemBlock)) := [openFive, dataFive, .recv idleSo, .recv idleSo]

/-- Both blocks are decoded as they were pushed. -/
theorem recv_removes_oldest_iff_openedOnce :
    ∃ s bs, exec (recvStep listPush) openedOnce freshWorker = some s ∧
      Rep s.work.rq bs ∧ s.pushed = s.handled ++ bs := by
  have hsome : (exec (recvStep listPush) openedOnce freshWorker).isSome := by decide +kernel
  have halong : Along (recvStep listPush) RecvOk openedOnce freshWorker := by decide +kernel
  have hsize : memHeadLen < 128 := by decide
  rcases Option.isSome_iff_exists.mp hsome with ⟨s, hrun⟩
  rcases (recv_removes_oldest_iff hsize listPush ⟨fun _ => none, []⟩).2 _ s halong hrun with
    ⟨bs, hrep, hpushed⟩
  exact ⟨s, bs, hrun, hrep, hpushed⟩

/-- A client is opened twice, then sends. -/
def openedTwice : List (RecvLbl (List MemBlock)) :=
  [openFive, openFive, dataFive, .recv idleSo, .recv idleSo]

/-- The second `BLK_OPEN` is rejected, and the next `mq_get` finds a block that
starts with its address bytes, is longer than the ring and was never pushed. -/
theorem openedTwice_decodes_garbage :
    ∃ s rq, exec (recvStep listPush) openedTwice freshWorker = some s ∧
      mqGet s.work.rq = some (some rq.tail, rq) ∧
      MemBlock.decode (rq.mem.ptr rq.tail) = ⟨16777343, 80, 0, 1280⟩ ∧
      blkAt (rq.mem.ptr rq.tail) ∉ s.pushed := by
  have hsome : (exec (recvStep listPush) openedTwice freshWorker).isSome := by
    decide +kernel
  have hget : ∀ s ∈ exec (recvStep listPush) openedTwice freshWorker,
      (mqGet s.work.rq).isSome := by
    decide +kernel
  have hfacts : ∀ s ∈ exec (recvStep listPush) openedTwice freshWorker,
      ∀ out ∈ mqGet s.work.rq, out.1 = some out.2.tail ∧
        MemBlock.decode (out.2.mem.ptr out.2.tail) = ⟨16777343, 80, 0, 1280⟩ ∧
        ∀ b ∈ s.pushed, b.head.fd ≠ 80 := by
    decide +kernel
  rcases Option.isSome_iff_exists.mp hsome with ⟨s, hrun⟩
  rcases Option.isSome_iff_exists.mp (hget s hrun) with ⟨⟨p, rq⟩, hout⟩
  rcases hfacts s hrun _ hout with ⟨hp, hdec, hfds⟩
  simp only at hp hdec
  rw [hp] at hout
  refine ⟨s, rq, hrun, hout, hdec, fun hmem => hfds _ hmem ?_⟩
  rw [blkAt, hdec]

end SServer.Worker
