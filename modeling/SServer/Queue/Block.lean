import SServer.Lib.Mem

/-!
# SServer.Queue.Block — `mem_block_t` in shared memory

The packed 13-byte block header of `mem_queue.h` and the block a pointer into
the ring denotes: the header fields and the `len - blk_head_len` payload bytes
behind them.

* `decode_congr`, `blkAt_congr`: a header, and a block, depend on their own bytes only.
* `blkAt_stored`: a block is read back as it was stored.

The payload of a block is bytes; what the handlers make of them is told where they are modelled.
-/

namespace SServer.Queue

open SServer.Lib

/-- `enum MEM_BLOCK_TYPE`. -/
inductive MemBlockType where
  | blkData
  | blkAlign
  | blkClose
  | blkOpen
deriving DecidableEq, Repr

/-- The value stored in the `uint8_t type` field. -/
def MemBlockType.code : MemBlockType → UInt8
  | .blkData => 0
  | .blkAlign => 1
  | .blkClose => 2
  | .blkOpen => 3

/-- `mem_block_t` without its payload. -/
structure MemBlock where
  id : Int32
  fd : Int32
  type : UInt8
  len : Int32
deriving DecidableEq

/-- `blk_head_len = sizeof(mem_block_t)`: two ints, a byte and an int, packed. -/
def blkHeadLen : Int := 13

/-- `mem_head_len = sizeof(mem_head_t)`: three ints. -/
def memHeadLen : Int := 12

/-- The bytes of a header, as the copy of a `mem_block_t` lays them out. -/
def MemBlock.encode (b : MemBlock) : Mem := fun i =>
  if i < 4 then storeLe32 b.id i
  else if i < 8 then storeLe32 b.fd (i - 4)
  else if i < 9 then b.type
  else storeLe32 b.len (i - 9)

/-- The header a pointer to a `mem_block_t` reads. -/
def MemBlock.decode (p : Mem) : MemBlock :=
  { id := loadLe32 p
    fd := loadLe32 (p.ptr 4)
    type := p 8
    len := loadLe32 (p.ptr 9) }

/-- A block as a value: its header and its payload bytes. -/
structure Blk where
  head : MemBlock
  payload : List UInt8
deriving DecidableEq

/-- The block behind a pointer. -/
def blkAt (p : Mem) : Blk :=
  { head := MemBlock.decode p
    payload := bytes (p.ptr blkHeadLen) ((MemBlock.decode p).len.toInt - blkHeadLen) }

/-- The block `mq_push(q, b, data)` is asked to append. -/
def MemBlock.withData (b : MemBlock) (data : Mem) : Blk :=
  { head := b
    payload := bytes data (b.len.toInt - blkHeadLen) }

/-- What every caller of `mq_push` is to hand over: a block at least as long as
its header, and not the type the queue keeps for itself. -/
def MemBlock.Pushable (b : MemBlock) : Prop :=
  blkHeadLen ≤ b.len.toInt ∧ b.type ≠ MemBlockType.blkAlign.code

instance (b : MemBlock) : Decidable b.Pushable := inferInstanceAs (Decidable (_ ∧ _))

/-! ## Reading back -/

/-- A header depends on its own bytes only. -/
theorem decode_congr {p p' : Mem} (h : ∀ i, 0 ≤ i → i < blkHeadLen → p i = p' i) :
    MemBlock.decode p = MemBlock.decode p' := by
  simp only [blkHeadLen] at h
  have hid : loadLe32 p = loadLe32 p' :=
    loadLe32_congr fun i h0 hi => h i h0 (by omega)
  have hfd : loadLe32 (p.ptr 4) = loadLe32 (p'.ptr 4) :=
    loadLe32_congr fun i h0 hi => h (4 + i) (by omega) (by omega)
  have hlen : loadLe32 (p.ptr 9) = loadLe32 (p'.ptr 9) :=
    loadLe32_congr fun i h0 hi => h (9 + i) (by omega) (by omega)
  rw [MemBlock.decode, MemBlock.decode, hid, hfd, hlen, h 8 (by decide) (by decide)]

/-- A copied header is read back field by field. -/
@[simp] theorem decode_encode (b : MemBlock) : MemBlock.decode b.encode = b := by
  have hid : loadLe32 b.encode = b.id := by
    rw [← loadLe32_storeLe32 b.id]
    refine loadLe32_congr fun i h0 hi => ?_
    simp [MemBlock.encode, hi]
  have hfd : loadLe32 (b.encode.ptr 4) = b.fd := by
    rw [← loadLe32_storeLe32 b.fd]
    refine loadLe32_congr fun i h0 hi => ?_
    simp only [Mem.ptr_apply, MemBlock.encode, if_neg (show ¬ 4 + i < 4 by omega),
      if_pos (show 4 + i < 8 by omega)]
    congr 1
    omega
  have hlen : loadLe32 (b.encode.ptr 9) = b.len := by
    rw [← loadLe32_storeLe32 b.len]
    refine loadLe32_congr fun i h0 hi => ?_
    simp only [Mem.ptr_apply, MemBlock.encode, if_neg (show ¬ 9 + i < 4 by omega),
      if_neg (show ¬ 9 + i < 8 by omega), if_neg (show ¬ 9 + i < 9 by omega)]
    congr 1
    omega
  rw [MemBlock.decode, hid, hfd, hlen]
  rfl

/-- The block behind a pointer depends on its own bytes only. -/
theorem blkAt_congr {p p' : Mem}
    (h : ∀ i, 0 ≤ i → i < max blkHeadLen (MemBlock.decode p).len.toInt → p i = p' i) :
    blkAt p = blkAt p' := by
  have hd : MemBlock.decode p = MemBlock.decode p' :=
    decode_congr fun i h0 hi => h i h0 (by omega)
  rw [blkAt, blkAt, ← hd]
  congr 1
  refine bytes_congr fun i h0 hi => ?_
  simp only [blkHeadLen, Mem.ptr_apply] at *
  exact h (13 + i) (by omega) (by omega)

/-- The header written at `d` and the payload written behind it make up the
block that was pushed. -/
theorem blkAt_stored (m : Mem) (d : Int) (b : MemBlock) (data : Mem) :
    blkAt ((memcpy (memcpy m d b.encode blkHeadLen) (d + blkHeadLen) data
      (b.len.toInt - blkHeadLen)).ptr d) = b.withData data := by
  have hd : MemBlock.decode ((memcpy (memcpy m d b.encode blkHeadLen) (d + blkHeadLen) data
      (b.len.toInt - blkHeadLen)).ptr d) = b := by
    rw [← decode_encode b]
    refine decode_congr fun i h0 hi => ?_
    rw [Mem.ptr_apply, memcpy_out (by omega), memcpy_in (by omega)]
    rw [decode_encode]
    congr 1
    omega
  rw [blkAt, hd, MemBlock.withData, Mem.ptr_ptr, bytes_memcpy_same _ _ _ (Int.le_refl _)]

end SServer.Queue
