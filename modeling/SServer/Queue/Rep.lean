import SServer.Queue.MemQueue

/-!
# SServer.Queue.Rep — which FIFO list a ring holds

`Rep q bs` says that the ring `q` holds the blocks `bs`, oldest first. It has
two shapes. In the flat one the blocks stand between `tail` and `head`. In the
wrapped one `head` has jumped back below `tail`: the oldest blocks reach from
`tail` to a point `w` where the ring was abandoned, the newer ones start behind
the `mem_head_t`, and what is left behind `w` is either too short for a header
or marked with a `BLK_ALIGN` one.

The lemmas of this file are about the single stores of `mq_push`, `mq_get` and
`mq_pop` (write bytes behind `head`, publish, mark, jump back, rewind, pop).
Both the sequential refinement and the interleaved one are assembled from them.

* `Rep.unique`: a ring holds at most one list of blocks.
* `Rep.length_lt`: and fewer blocks than it has bytes, so a ring cannot take blocks for ever.

`Rep` is about bytes in the ring only: it does not say who stored them, or when.
-/

namespace SServer.Queue

open SServer.Lib

/-! ## Contiguous blocks -/

/-- The blocks `bs` stand one behind the other from `lo` to exactly `hi`. -/
inductive Seg (m : Mem) : Int → Int → List Blk → Prop where
  | nil (p : Int) : Seg m p p []
  | cons {p hi : Int} {b : Blk} {bs : List Blk} (hb : blkAt (m.ptr p) = b)
      (hp : b.head.Pushable) (hrest : Seg m (p + b.head.len.toInt) hi bs) :
      Seg m p hi (b :: bs)

/-- Blocks one behind the other go upwards. -/
theorem Seg.le {m : Mem} {lo hi : Int} {bs : List Blk} (h : Seg m lo hi bs) : lo ≤ hi := by
  induction h with
  | nil p => exact Int.le_refl p
  | cons hb hp _ ih =>
    have hlen := hp.1
    simp only [blkHeadLen] at hlen
    omega

/-- A segment with a block in it has room for that block. -/
theorem Seg.head_le {m : Mem} {lo hi : Int} {b : Blk} {bs : List Blk}
    (h : Seg m lo hi (b :: bs)) : lo + b.head.len.toInt ≤ hi := by
  cases h with
  | cons hb hp hrest => exact hrest.le

/-- A segment has room for a header of each block in it. -/
theorem Seg.length_le {m : Mem} {lo hi : Int} {bs : List Blk} (h : Seg m lo hi bs) :
    lo + blkHeadLen * bs.length ≤ hi := by
  induction h with
  | nil p => simp
  | cons hb hp _ ih =>
    have hlen := hp.1
    rw [List.length_cons]
    simp only [blkHeadLen] at hlen ih ⊢
    omega

/-- A segment over a non-empty range starts with a block. -/
theorem Seg.exists_cons {m : Mem} {lo hi : Int} {bs : List Blk} (h : Seg m lo hi bs)
    (hlt : lo < hi) : ∃ b rest, bs = b :: rest ∧ blkAt (m.ptr lo) = b ∧ b.head.Pushable ∧
      Seg m (lo + b.head.len.toInt) hi rest := by
  cases h with
  | nil => omega
  | cons hb hp hrest => exact ⟨_, _, rfl, hb, hp, hrest⟩

/-- An empty range holds no block. -/
theorem Seg.eq_nil {m : Mem} {p : Int} {bs : List Blk} (h : Seg m p p bs) : bs = [] := by
  cases h with
  | nil => rfl
  | cons hb hp hrest =>
    have hle := hrest.le
    have hlen := hp.1
    simp only [blkHeadLen] at hlen
    omega

/-- A segment without blocks is an empty range. -/
theorem Seg.eq_of_nil {m : Mem} {lo hi : Int} (h : Seg m lo hi []) : lo = hi := by
  cases h with
  | nil => rfl

/-- A segment depends on the bytes of its range only. -/
theorem Seg.congr {m m' : Mem} {lo hi : Int} {bs : List Blk} (h : Seg m lo hi bs)
    (hm : ∀ a, lo ≤ a → a < hi → m a = m' a) : Seg m' lo hi bs := by
  induction h with
  | nil p => exact .nil p
  | @cons p hi b bs hb hp hrest ih =>
    have hlen := hp.1
    have hle := hrest.le
    simp only [blkHeadLen] at hlen
    have hdec : (MemBlock.decode (m.ptr p)).len = b.head.len := by rw [← hb, blkAt]
    have hsame : blkAt (m.ptr p) = blkAt (m'.ptr p) := by
      refine blkAt_congr fun i h0 hi => ?_
      rw [hdec, blkHeadLen] at hi
      exact hm (p + i) (by omega) (by omega)
    exact .cons (hsame ▸ hb) hp (ih fun a h1 h2 => hm a (by omega) h2)

/-- One more block behind a segment. -/
theorem Seg.concat {m : Mem} {lo mid : Int} {bs : List Blk} {b : Blk} (h : Seg m lo mid bs)
    (hb : blkAt (m.ptr mid) = b) (hp : b.head.Pushable) :
    Seg m lo (mid + b.head.len.toInt) (bs ++ [b]) := by
  induction h with
  | nil p => exact .cons hb hp (.nil _)
  | cons hb' hp' _ ih => exact .cons hb' hp' (ih hb)

/-! ## The representation -/

/-- Behind `w` there is no block: no header fits, or a filler header stands there. -/
def EndGap (m : Mem) (w len : Int) : Prop :=
  w + blkHeadLen ≤ len → (MemBlock.decode (m.ptr w)).type = MemBlockType.blkAlign.code

/-- The ring `q` holds the blocks `bs`. -/
inductive Rep (q : MemQueue) : List Blk → Prop where
  | flat {bs : List Blk} (htail : memHeadLen ≤ q.tail) (hle : q.tail ≤ q.head)
      (hlen : q.head < q.len) (hs : Seg q.mem q.tail q.head bs) : Rep q bs
  | wrapped {xs ys : List Blk} {w : Int} (hhead : memHeadLen ≤ q.head) (hlt : q.head < q.tail)
      (hw : q.tail ≤ w) (hlen : w < q.len) (hx : Seg q.mem q.tail w xs)
      (hgap : EndGap q.mem w q.len) (hy : Seg q.mem memHeadLen q.head ys) : Rep q (xs ++ ys)

/-- A fresh queue is empty. -/
theorem rep_init {size : Int} (h : memHeadLen < size) : Rep (mqInit size) [] :=
  .flat (Int.le_refl _) (Int.le_refl _) h (.nil _)

/-- Both indices stay inside the ring. -/
theorem Rep.bounds {q : MemQueue} {bs : List Blk} (h : Rep q bs) :
    memHeadLen ≤ q.head ∧ q.head < q.len ∧ memHeadLen ≤ q.tail ∧ q.tail < q.len := by
  cases h with
  | flat htail hle hlen _ => exact ⟨by omega, hlen, htail, by omega⟩
  | wrapped hhead hlt hw hlen _ _ _ => exact ⟨hhead, by omega, by omega, by omega⟩

/-- **A ring holds fewer blocks than it has bytes.** -/
theorem Rep.length_lt {q : MemQueue} {bs : List Blk} (h : Rep q bs) :
    blkHeadLen * bs.length < q.len := by
  cases h with
  | flat htail hle hlen hs =>
    have hlength := hs.length_le
    simp only [memHeadLen, blkHeadLen] at htail hlength ⊢
    omega
  | wrapped hhead hlt hw hlen hx hgap hy =>
    have hupper := hx.length_le
    have hlower := hy.length_le
    rw [List.length_append]
    simp only [memHeadLen, blkHeadLen] at hlower hupper ⊢
    omega

/-- `blk_cnt` is not part of the representation. -/
theorem Rep.blkCnt {q : MemQueue} {bs : List Blk} (h : Rep q bs) (n : Int) :
    Rep { q with blkCnt := n } bs := by
  cases h with
  | flat htail hle hlen hs => exact .flat htail hle hlen hs
  | wrapped hhead hlt hw hlen hx hgap hy => exact .wrapped hhead hlt hw hlen hx hgap hy

/-- In the flat shape the contents are one segment. -/
theorem Rep.seg_of_le {q : MemQueue} {bs : List Blk} (h : Rep q bs) (hle : q.tail ≤ q.head) :
    Seg q.mem q.tail q.head bs := by
  cases h with
  | flat _ _ _ hs => exact hs
  | wrapped _ hlt _ _ _ _ _ => omega

/-! ## Writing behind `head` -/

/-- There is room for `n` bytes behind `head`, and a byte to spare. -/
def Room (q : MemQueue) (n : Int) : Prop :=
  (q.tail ≤ q.head ∧ q.head + n < q.len) ∨ (q.head < q.tail ∧ q.head + n < q.tail)

/-- Bytes written behind `head` and, in a wrapped ring, below `tail` do not
touch the contents. -/
theorem Rep.write {q : MemQueue} {bs : List Blk} {m' : Mem} {n : Int} (h : Rep q bs)
    (hroom : q.head < q.tail → q.head + n ≤ q.tail)
    (hm : ∀ a, a < q.head ∨ q.head + n ≤ a → q.mem a = m' a) : Rep { q with mem := m' } bs := by
  cases h with
  | flat htail hle hlen hs =>
    exact .flat htail hle hlen (hs.congr fun a _ h2 => hm a (Or.inl h2))
  | wrapped hhead hlt hw hlen hx hgap hy =>
    have hfit := hroom hlt
    refine .wrapped hhead hlt hw hlen (hx.congr fun a h1 _ => hm a (Or.inr (by omega))) ?_
      (hy.congr fun a _ h2 => hm a (Or.inl h2))
    intro hle
    rw [← hgap hle]
    congr 1
    refine decode_congr fun i h0 _ => ?_
    exact (hm (_ + i) (Or.inr (by omega))).symm

/-- Nor do bytes written just below `tail`, where the popped blocks stood. -/
theorem Rep.write_popped {q : MemQueue} {bs : List Blk} {m' : Mem} {n : Int} (h : Rep q bs)
    (hroom : q.head < q.tail → q.head ≤ q.tail - n)
    (hm : ∀ a, a < q.tail - n ∨ q.tail ≤ a → q.mem a = m' a) : Rep { q with mem := m' } bs := by
  cases h with
  | flat htail hle hlen hs =>
    exact .flat htail hle hlen (hs.congr fun a h1 _ => hm a (Or.inr h1))
  | wrapped hhead hlt hw hlen hx hgap hy =>
    have hfit := hroom hlt
    refine .wrapped hhead hlt hw hlen (hx.congr fun a h1 _ => hm a (Or.inr h1)) ?_
      (hy.congr fun a _ h2 => hm a (Or.inl (by omega)))
    intro hle
    rw [← hgap hle]
    congr 1
    refine decode_congr fun i h0 _ => ?_
    exact (hm (_ + i) (Or.inr (by omega))).symm

/-- Room in a wrapped ring ends below `tail`. -/
theorem Room.below {q : MemQueue} {n : Int} (h : Room q n) (hlt : q.head < q.tail) :
    q.head + n < q.tail := by
  rcases h with ⟨hle, _⟩ | ⟨_, hfit⟩
  · omega
  · exact hfit

/-- Copying a block writes its own bytes only. -/
theorem copyBlk_frame (q : MemQueue) {b : MemBlock} (hb : b.Pushable) (data : Mem) :
    ∀ a, a < q.head ∨ q.head + b.len.toInt ≤ a →
      q.mem a = (q.copyBlk q.head b data).mem a := by
  intro a ha
  have hlen := hb.1
  simp only [blkHeadLen] at hlen
  simp only [MemQueue.copyBlk, blkHeadLen]
  rw [memcpy_out (by omega), memcpy_out (by omega)]

/-- Copying a block into the room behind `head` leaves the contents alone. -/
theorem Rep.copyBlk {q : MemQueue} {bs : List Blk} (h : Rep q bs) {b : MemBlock}
    (hb : b.Pushable) (hroom : Room q b.len.toInt) (data : Mem) :
    Rep (q.copyBlk q.head b data) bs := by
  have hfit : q.head < q.tail → q.head + b.len.toInt ≤ q.tail := by
    intro hlt
    have hbelow := hroom.below hlt
    omega
  exact h.write hfit (copyBlk_frame q hb data)

/-- The copied block is the one behind `head`. -/
theorem blkAt_copyBlk (q : MemQueue) (b : MemBlock) (data : Mem) :
    blkAt ((q.copyBlk q.head b data).mem.ptr q.head) = b.withData data :=
  blkAt_stored q.mem q.head b data

/-- Publishing the block that stands behind `head` appends it. -/
theorem Rep.publish {q : MemQueue} {bs : List Blk} (h : Rep q bs) {b : Blk}
    (hb : blkAt (q.mem.ptr q.head) = b) (hp : b.head.Pushable)
    (hroom : Room q b.head.len.toInt) :
    Rep { q with head := q.head + b.head.len.toInt } (bs ++ [b]) := by
  have hlen := hp.1
  simp only [blkHeadLen] at hlen
  cases h with
  | flat htail hle hq hs =>
    rcases hroom with ⟨_, hr⟩ | ⟨hlt, _⟩
    · exact .flat htail (by simp only; omega) hr (hs.concat hb hp)
    · omega
  | @wrapped xs ys w hhead hlt hw hq hx hgap hy =>
    rcases hroom with ⟨hle, _⟩ | ⟨_, hr⟩
    · omega
    · rw [List.append_assoc]
      exact .wrapped (by simp only; omega) hr hw hq hx hgap (hy.concat hb hp)

/-! ## The end of the ring -/

/-- Outside the type byte a store to it changes nothing. -/
theorem setType_mem (q : MemQueue) (t : MemBlockType) {blk a : Int}
    (h : a < blk + 8 ∨ blk + 9 ≤ a) : (q.setType blk t).mem a = q.mem a := by
  simp only [MemQueue.setType]
  rw [memcpy_out (by omega)]

/-- Outside the length field a store to it changes nothing. -/
theorem setLen_mem (q : MemQueue) {blk n a : Int} (h : a < blk + 9 ∨ blk + 13 ≤ a) :
    (q.setLen blk n).mem a = q.mem a := by
  simp only [MemQueue.setLen]
  rw [memcpy_out (by omega)]

/-- The stored type is read back. -/
@[simp] theorem setType_type (q : MemQueue) (blk : Int) (t : MemBlockType) :
    (MemBlock.decode ((q.setType blk t).mem.ptr blk)).type = t.code := by
  simp only [MemBlock.decode, Mem.ptr_apply, MemQueue.setType]
  rw [memcpy_in (by omega)]

/-- A stored length leaves the type alone. -/
@[simp] theorem setLen_type (q : MemQueue) (blk n : Int) :
    (MemBlock.decode ((q.setLen blk n).mem.ptr blk)).type
      = (MemBlock.decode (q.mem.ptr blk)).type := by
  exact setLen_mem q (by omega)

/-- The stored length is read back. -/
@[simp] theorem setLen_len (q : MemQueue) (blk n : Int) :
    (MemBlock.decode ((q.setLen blk n).mem.ptr blk)).len = Int32.ofInt n := by
  rw [← loadLe32_storeLe32 (Int32.ofInt n)]
  refine loadLe32_congr fun i h0 hi => ?_
  simp only [Mem.ptr_apply, MemQueue.setLen]
  rw [memcpy_in (by omega)]
  congr 1
  omega

/-- The type byte of the filler header. -/
theorem writeAlign_type (q : MemQueue) :
    (MemBlock.decode (q.writeAlign.mem.ptr q.head)).type = MemBlockType.blkAlign.code := by
  unfold MemQueue.writeAlign MemQueue.blkHead
  rw [setLen_type, setType_type]

/-- Both stores of a filler header stay inside that header. -/
theorem setType_frame (q : MemQueue) (t : MemBlockType) :
    ∀ a, a < q.head ∨ q.head + blkHeadLen ≤ a → q.mem a = (q.setType q.head t).mem a := by
  intro a ha
  simp only [blkHeadLen] at ha
  exact (setType_mem q t (by omega)).symm

/-- A length that is stored at `head` touches no byte beside its header. -/
theorem setLen_frame (q : MemQueue) (n : Int) :
    ∀ a, a < q.head ∨ q.head + blkHeadLen ≤ a → q.mem a = (q.setLen q.head n).mem a := by
  intro a ha
  simp only [blkHeadLen] at ha
  exact (setLen_mem q (by omega)).symm

/-- Behind the blocks of a flat ring a type can be stored. -/
theorem Rep.setType {q : MemQueue} {bs : List Blk} (h : Rep q bs) (hle : q.tail ≤ q.head)
    (t : MemBlockType) : Rep (q.setType q.head t) bs :=
  h.write (fun hlt => by omega) (setType_frame q t)

/-- And so can a length. -/
theorem Rep.setLen {q : MemQueue} {bs : List Blk} (h : Rep q bs) (hle : q.tail ≤ q.head)
    (n : Int) : Rep (q.setLen q.head n) bs :=
  h.write (fun hlt => by omega) (setLen_frame q n)

/-- Marking the rest of a flat ring leaves the contents alone. -/
theorem Rep.writeAlign {q : MemQueue} {bs : List Blk} (h : Rep q bs) (hle : q.tail ≤ q.head) :
    Rep q.writeAlign bs :=
  (h.setType hle .blkAlign).setLen hle (q.len - q.head)

/-- Marked, or too short for a mark, the rest of the ring is an end gap. -/
theorem Rep.mark {q : MemQueue} {bs : List Blk} (h : Rep q bs) (hle : q.tail ≤ q.head) :
    ∃ q', (if q.head + blkHeadLen ≤ q.len then q.writeAlign else q) = q' ∧ Rep q' bs ∧
      q'.tail = q.tail ∧ q'.head = q.head ∧ q'.len = q.len ∧ EndGap q'.mem q'.head q'.len := by
  by_cases hfit : q.head + blkHeadLen ≤ q.len
  · rw [if_pos hfit]
    exact ⟨_, rfl, h.writeAlign hle, rfl, rfl, rfl, fun _ => writeAlign_type q⟩
  · rw [if_neg hfit]
    exact ⟨_, rfl, h, rfl, rfl, rfl, fun hfit' => absurd hfit' hfit⟩

/-- `head` may jump back once the rest of the ring is marked and `tail` has
left the beginning. -/
theorem Rep.wrap {q : MemQueue} {bs : List Blk} (h : Rep q bs) (hle : q.tail ≤ q.head)
    (hgap : EndGap q.mem q.head q.len) (hne : memHeadLen ≠ q.tail) :
    Rep { q with head := memHeadLen } bs := by
  have hb := h.bounds
  have hs := h.seg_of_le hle
  rw [← List.append_nil bs]
  exact .wrapped (Int.le_refl _) (by simp only; omega) hle hb.2.1 hs hgap (.nil _)

/-! ## The consumer's stores -/

/-- `tail` stands on a block: in a flat ring that is not empty, or on a header
that is not a filler before the end of a wrapped one. -/
def AtBlock (q : MemQueue) : Prop :=
  q.tail < q.head ∨ (q.head < q.tail ∧ q.tail + blkHeadLen ≤ q.len ∧
    (MemBlock.decode (q.mem.ptr q.tail)).type ≠ MemBlockType.blkAlign.code)

/-- `tail` stands on the abandoned end of a wrapped ring. -/
def AtEnd (q : MemQueue) : Prop :=
  q.head < q.tail ∧ (q.tail + blkHeadLen ≤ q.len →
    (MemBlock.decode (q.mem.ptr q.tail)).type = MemBlockType.blkAlign.code)

/-- A block that a segment starts with has its own type and fits its range. -/
theorem Seg.head_facts {m : Mem} {lo hi : Int} {b : Blk} {bs : List Blk}
    (h : Seg m lo hi (b :: bs)) :
    (MemBlock.decode (m.ptr lo)) = b.head ∧ b.head.Pushable ∧ lo + blkHeadLen ≤ hi := by
  cases h with
  | cons hb hp hrest =>
    have hle := hrest.le
    have hlen := hp.1
    exact ⟨by rw [← hb, blkAt], hp, by omega⟩

/-- Rewinding `tail` at the abandoned end keeps the contents. -/
theorem Rep.rewind {q : MemQueue} {bs : List Blk} (h : Rep q bs) (hend : AtEnd q) :
    Rep { q with tail := memHeadLen } bs := by
  cases h with
  | flat _ hle _ _ => exact absurd hend.1 (by omega)
  | @wrapped xs ys w hhead hlt hw hlen hx hgap hy =>
    cases xs with
    | nil => exact .flat (Int.le_refl _) hhead (by simp only; omega) hy
    | cons b xs =>
      -- a block stands at `tail`, so neither reason to rewind can hold
      obtain ⟨hdec, hp, hfit⟩ := hx.head_facts
      exact absurd (hdec ▸ hend.2 (by omega)) hp.2

/-- On a block, the contents start with it, and stepping over it removes it. -/
theorem Rep.step_over {q : MemQueue} {bs : List Blk} (h : Rep q bs) (hat : AtBlock q) :
    ∃ b rest, bs = b :: rest ∧ blkAt (q.mem.ptr q.tail) = b ∧ b.head.Pushable ∧
      Rep { q with tail := q.tail + b.head.len.toInt } rest := by
  cases h with
  | flat htail hle hlen hs =>
    rcases hat with hlt | ⟨hlt, _⟩
    swap
    · omega
    obtain ⟨b, rest, rfl, hb, hp, hrest⟩ := hs.exists_cons hlt
    have hpos := hp.1
    have hend := hrest.le
    simp only [blkHeadLen] at hpos
    exact ⟨b, rest, rfl, hb, hp, .flat (by simp only; omega) hend hlen hrest⟩
  | @wrapped xs ys w hhead hlt hw hlen hx hgap hy =>
    rcases hat with hlt' | ⟨_, hfit, htype⟩
    · omega
    -- the filler of an empty upper part would stand at `tail` itself
    have hne : q.tail < w := by
      by_contra hge
      obtain rfl : w = q.tail := by omega
      exact htype (hgap hfit)
    obtain ⟨b, rest, rfl, hb, hp, hrest⟩ := hx.exists_cons hne
    have hpos := hp.1
    have hend := hrest.le
    simp only [blkHeadLen] at hpos
    exact ⟨b, rest ++ ys, rfl, hb, hp,
      .wrapped hhead (by simp only; omega) hend hlen hrest hgap hy⟩

/-- A ring with equal indices is empty. -/
theorem Rep.eq_nil {q : MemQueue} {bs : List Blk} (h : Rep q bs) (heq : q.head = q.tail) :
    bs = [] := by
  have hs := h.seg_of_le (by omega)
  rw [heq] at hs
  exact hs.eq_nil

/-- A flat ring whose indices differ has a whole header between them. -/
theorem Rep.head_fits {q : MemQueue} {bs : List Blk} (h : Rep q bs) (hlt : q.tail < q.head) :
    q.tail + blkHeadLen ≤ q.head := by
  have hs := h.seg_of_le (by omega)
  obtain ⟨b, rest, rfl, _⟩ := hs.exists_cons hlt
  exact hs.head_facts.2.2

/-! ## The contents are determined by the ring -/

/-- From one start, two segments that each end where no block can stand are the same. -/
theorem Seg.unique {m : Mem} {lo w w' : Int} {xs xs' : List Blk} (h : Seg m lo w xs)
    (h' : Seg m lo w' xs') (hend : ∀ b bs, ¬ Seg m w w' (b :: bs))
    (hend' : ∀ b bs, ¬ Seg m w' w (b :: bs)) : w = w' ∧ xs = xs' := by
  induction h generalizing xs' with
  | nil p =>
    cases h' with
    | nil => exact ⟨rfl, rfl⟩
    | cons hb hp hrest => exact absurd (.cons hb hp hrest) (hend _ _)
  | cons hb hp hrest ih =>
    cases h' with
    | nil => exact absurd (.cons hb hp hrest) (hend' _ _)
    | cons hb' hp' hrest' =>
      obtain rfl := hb.symm.trans hb'
      obtain ⟨hw, hxs⟩ := ih hrest' hend hend'
      exact ⟨hw, by rw [hxs]⟩

/-- No block stands at the abandoned end of a ring. -/
theorem EndGap.not_seg {m : Mem} {w w' len : Int} (hgap : EndGap m w len) (hlen : w' < len)
    (b : Blk) (bs : List Blk) : ¬ Seg m w w' (b :: bs) := by
  intro hs
  obtain ⟨hdec, hp, hfit⟩ := hs.head_facts
  exact hp.2 (hdec ▸ hgap (by omega))

/-- **A ring holds at most one list of blocks.** -/
theorem Rep.unique {q : MemQueue} {bs bs' : List Blk} (h : Rep q bs) (h' : Rep q bs') :
    bs = bs' := by
  have hself : ∀ b bs, ¬ Seg q.mem q.head q.head (b :: bs) := by
    intro b bs hs
    cases hs.eq_nil
  rcases h with ⟨_, hle, _, hs⟩ | ⟨_, hlt, _, hlen, hx, hgap, hy⟩
  · exact (hs.unique (h'.seg_of_le hle) hself hself).2
  · rcases h' with ⟨_, hle, _, _⟩ | ⟨_, _, _, hlen', hx', hgap', hy'⟩
    · omega
    · obtain ⟨_, rfl⟩ := hx.unique hx' (hgap.not_seg hlen') (hgap'.not_seg hlen)
      obtain ⟨_, rfl⟩ := hy.unique hy' hself hself
      rfl

end SServer.Queue
