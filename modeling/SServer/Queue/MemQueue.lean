import SServer.Queue.Block

/-!
# SServer.Queue.MemQueue — the shared-memory queue of `mem_queue.c`

One byte ring per direction between the master and a worker. `head` is where
the next block is written, `tail` where the oldest one stands; both start
behind the `mem_head_t` at the beginning of the mapping. A block never wraps:
when it does not fit behind `head`, the rest of the ring is marked with a
`BLK_ALIGN` header (if a header fits there at all) and `head` jumps back.

The functions are those of the source, executed by one party alone; the
interleaving of two parties is the subject of `SServer.Queue.Race`. The two
backward jumps (`push_again`, `get_again`) are bounded by a count of passes;
`none` stands for a call that does not return: it used up its passes, or
`memcpy` was handed a negative size, which as a `size_t` runs off the mapping.
`mq_push` and `mq_get` are given two passes, and that two are enough on every
ring that a program can build is proved in `SServer.Queue.Refine`.
The additions on `head` are those of ints that do not overflow.

`blk_cnt` is kept as the source keeps it, though nobody goes by it. The byte that `mq_push`
writes into the pipe is in `SServer.Queue.Wake`, and `mq_fini`, which unmaps, is left out.
-/

namespace SServer.Queue

open SServer.Lib

/-- `mem_queue_t` with the `mem_head_t` and the bytes of its mapping. Addresses
in `mem` are offsets from `q->ptr`. -/
structure MemQueue where
  mem : Mem
  head : Int
  tail : Int
  blkCnt : Int
  len : Int

/-- `mq_init`: a zeroed mapping, both indices behind the `mem_head_t`. -/
def mqInit (size : Int) : MemQueue :=
  { mem := fun _ => 0, head := memHeadLen, tail := memHeadLen, blkCnt := 0, len := size }

namespace MemQueue

/-- `blk_tail(q)`, as an offset into the mapping. -/
def blkTail (q : MemQueue) : Int := q.tail

/-- `blk_head(q)`, as an offset into the mapping. -/
def blkHead (q : MemQueue) : Int := q.head

/-- `blk->type = t`, for the block at offset `blk`. -/
def setType (q : MemQueue) (blk : Int) (t : MemBlockType) : MemQueue :=
  { q with mem := memcpy q.mem (blk + 8) (fun _ => t.code) 1 }

/-- `blk->len = n`, for the block at offset `blk`. -/
def setLen (q : MemQueue) (blk n : Int) : MemQueue :=
  { q with mem := memcpy q.mem (blk + 9) (storeLe32 (Int32.ofInt n)) 4 }

/-- The filler header: `blk->type = BLK_ALIGN; blk->len = q->len - ptr->head`.
The two stores leave the other header fields as they are. -/
def writeAlign (q : MemQueue) : MemQueue :=
  (q.setType q.blkHead .blkAlign).setLen q.blkHead (q.len - q.head)

/-- The two `memcpy` calls that write a block at `blk`. -/
def copyBlk (q : MemQueue) (blk : Int) (b : MemBlock) (data : Mem) : MemQueue :=
  let mem := memcpy q.mem blk b.encode blkHeadLen
  { q with mem := memcpy mem (blk + blkHeadLen) data (b.len.toInt - blkHeadLen) }

/-- Append at `head`: copy the block, advance `head`, count it. -/
def append (q : MemQueue) (b : MemBlock) (data : Mem) : Option (Int × MemQueue) :=
  if b.len.toInt < blkHeadLen then none
  else
    let q' := q.copyBlk q.blkHead b data
    some (0, { q' with head := q.head + b.len.toInt, blkCnt := q.blkCnt + 1 })

end MemQueue

/-- The body of `mq_push` from the label `push_again`, with a count of passes. -/
def pushAgain : Nat → MemQueue → MemBlock → Mem → Option (Int × MemQueue)
  | 0, _, _, _ => none
  | n + 1, q, b, data =>
    if q.tail ≤ q.head then
      if q.len ≤ q.head + b.len.toInt then
        let q' := if q.head + blkHeadLen ≤ q.len then q.writeAlign else q
        if memHeadLen = q'.tail then some (-1, q')
        else pushAgain n { q' with head := memHeadLen } b data
      else q.append b data
    else if q.head < q.tail then
      if q.tail ≤ q.head + b.len.toInt then some (-1, q)
      else q.append b data
    else some (0, q)

/-- `mq_push`: `0` when the block was appended, `-1` when the queue is full. -/
def mqPush (q : MemQueue) (b : MemBlock) (data : Mem) : Option (Int × MemQueue) :=
  pushAgain 2 q b data

/-- The body of `mq_get` from the label `get_again`, with a count of passes. -/
def getAgain : Nat → MemQueue → Option (Option Int × MemQueue)
  | 0, _ => none
  | n + 1, q =>
    if q.tail < q.head then
      if q.tail + blkHeadLen ≤ q.head then some (some q.blkTail, q)
      else some (none, q)
    else if q.head < q.tail then
      if q.len < q.tail + blkHeadLen then getAgain n { q with tail := memHeadLen }
      else if (MemBlock.decode (q.mem.ptr q.blkTail)).type = MemBlockType.blkAlign.code then
        getAgain n { q with tail := memHeadLen }
      else some (some q.blkTail, q)
    else some (none, q)

/-- `mq_get`: the offset of the oldest block, or `none` for `NULL`. -/
def mqGet (q : MemQueue) : Option (Option Int × MemQueue) := getAgain 2 q

/-- `mq_pop`: step over the block at `tail` by that block's own length. -/
def mqPop (q : MemQueue) : MemQueue :=
  { q with
    tail := q.tail + (MemBlock.decode (q.mem.ptr q.blkTail)).len.toInt
    blkCnt := q.blkCnt - 1 }

end SServer.Queue
