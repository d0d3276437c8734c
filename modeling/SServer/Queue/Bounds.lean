import SServer.Lib.Run
import SServer.Queue.Refine

/-!
# SServer.Queue.Bounds — which bytes of the mapping are touched

The bound tests of `mq_push` and `mq_get` add to `head` and `tail` as ints, and such a
sum wraps at 2 ^ 31. Here the functions are written with the sums of the machine, and
with a note of every range of the mapping that they read or write.

The result: in every state of a run both indices are inside the ring, and so is
every range touched, exactly when no block is pushed whose end, counted from `head`,
is no int.

* `boundPush_cases`: a push, on either side of the condition.
* `boundGet_inv`, `boundPop_inv`: the two other calls never leave the ring, as long as the
  pushes have not.
* `in_bounds_iff`: the result, for a queue of any length and blocks of any lengths.
* `longestBlock_not_inBounds`: a block whose length is almost the greatest int is copied over
  the end of the ring.

Only the ranges inside the mapping are noted. What a caller's block itself reads from is the
callers' business.
-/

namespace SServer.Queue

open SServer.Lib

/-! ## Sums of ints -/

/-- A sum as the machine leaves it in an int. -/
def wrap (n : Int) : Int := (Int32.ofInt n).toInt

/-- An int does not wrap. -/
theorem wrap_of_lt {n : Int} (hlo : -2 ^ 31 ≤ n) (hhi : n < 2 ^ 31) : wrap n = n :=
  Int32.toInt_ofInt_of_le hlo hhi

/-- A sum of two ints that is too large for one comes out below zero. -/
theorem wrap_of_ge {n : Int} (hlo : 2 ^ 31 ≤ n) (hhi : n < 2 ^ 32) : wrap n = n - 2 ^ 32 := by
  simp only [wrap, Int32.toInt_ofInt, Int32.size, Int.bmod_def]
  omega

/-! ## The functions, with what they touch -/

/-- `len` bytes of the mapping, from the offset `lo` on. -/
structure Span where
  lo : Int
  len : Int
deriving DecidableEq

/-- The range is behind the `mem_head_t` and before the end of the ring. -/
def Span.Inside (s : Span) (size : Int) : Prop := memHeadLen ≤ s.lo ∧ s.lo + s.len ≤ size

instance (s : Span) (size : Int) : Decidable (s.Inside size) := inferInstanceAs (Decidable (_ ∧ _))

/-- The type and the length of a filler header at `blk`. -/
def alignSpans (blk : Int) : List Span := [⟨blk + 8, 1⟩, ⟨blk + 9, 4⟩]

/-- The header of a block of `len` bytes at `blk`, and its payload. -/
def blkSpans (blk len : Int) : List Span :=
  [⟨blk, blkHeadLen⟩, ⟨blk + blkHeadLen, len - blkHeadLen⟩]

/-- Copy the block behind `head` and publish it. -/
def spanAppend (q : MemQueue) (b : MemBlock) (data : Mem) : Option (Int × MemQueue × List Span) :=
  if b.len.toInt < blkHeadLen then none
  else
    let q' := q.copyBlk q.blkHead b data
    some (0, { q' with head := wrap (q.head + b.len.toInt), blkCnt := q.blkCnt + 1 },
      blkSpans q.blkHead b.len.toInt)

/-- `mq_push` from the label `push_again`. -/
def spanPushAgain : Nat → MemQueue → MemBlock → Mem → Option (Int × MemQueue × List Span)
  | 0, _, _, _ => none
  | n + 1, q, b, data =>
    if q.tail ≤ q.head then
      if q.len ≤ wrap (q.head + b.len.toInt) then
        let marks := decide (wrap (q.head + blkHeadLen) ≤ q.len)
        let q' := if marks then q.writeAlign else q
        let spans := if marks then alignSpans q.blkHead else []
        if memHeadLen = q'.tail then some (-1, q', spans)
        else
          (spanPushAgain n { q' with head := memHeadLen } b data).map fun (r, q, more) =>
            (r, q, spans ++ more)
      else spanAppend q b data
    else if q.head < q.tail then
      if q.tail ≤ wrap (q.head + b.len.toInt) then some (-1, q, [])
      else spanAppend q b data
    else some (0, q, [])

/-- `mq_push`. -/
def spanPush (q : MemQueue) (b : MemBlock) (data : Mem) : Option (Int × MemQueue × List Span) :=
  spanPushAgain 2 q b data

/-- `mq_get` from the label `get_again`. -/
def spanGetAgain : Nat → MemQueue → Option (Option Int × MemQueue × List Span)
  | 0, _ => none
  | n + 1, q =>
    if q.tail < q.head then
      if wrap (q.tail + blkHeadLen) ≤ q.head then some (some q.blkTail, q, [])
      else some (none, q, [])
    else if q.head < q.tail then
      if q.len < wrap (q.tail + blkHeadLen) then spanGetAgain n { q with tail := memHeadLen }
      else if (MemBlock.decode (q.mem.ptr q.blkTail)).type = MemBlockType.blkAlign.code then
        (spanGetAgain n { q with tail := memHeadLen }).map fun (p, q', more) =>
          (p, q', ⟨q.blkTail + 8, 1⟩ :: more)
      else some (some q.blkTail, q, [⟨q.blkTail + 8, 1⟩])
    else some (none, q, [])

/-- `mq_get`. -/
def spanGet (q : MemQueue) : Option (Option Int × MemQueue × List Span) := spanGetAgain 2 q

/-- `mq_pop`. -/
def spanPop (q : MemQueue) : MemQueue × List Span :=
  ({ q with
      tail := wrap (q.tail + (MemBlock.decode (q.mem.ptr q.blkTail)).len.toInt)
      blkCnt := q.blkCnt - 1 }, [⟨q.blkTail + 9, 4⟩])

/-- The block behind a pointer that `mq_get` returned. -/
def foundSpans (q : MemQueue) : Option Int → List Span
  | none => []
  | some blk => blkSpans blk (MemBlock.decode (q.mem.ptr blk)).len.toInt

/-! ## Without overflow -/

/-- Forget what was touched. -/
def unspan {α : Type} (out : Option (α × MemQueue × List Span)) : Option (α × MemQueue) :=
  out.map fun (r, q, _) => (r, q)

/-- Without overflow the noted copy is the one of `mq_push`. -/
theorem spanAppend_eq {q : MemQueue} {b : MemBlock} (data : Mem)
    (hlo : 0 ≤ q.head) (hfit : q.head + b.len.toInt < 2 ^ 31) :
    unspan (spanAppend q b data) = q.append b data := by
  unfold spanAppend MemQueue.append unspan
  by_cases hshort : b.len.toInt < blkHeadLen
  · rw [if_pos hshort, if_pos hshort]
    rfl
  · simp only [blkHeadLen] at hshort
    rw [if_neg (by simp only [blkHeadLen]; omega), if_neg (by simp only [blkHeadLen]; omega),
      wrap_of_lt (by omega) hfit]
    rfl

/-- A push whose sums are ints is the push of `SServer.Queue.MemQueue`. -/
theorem spanPushAgain_eq {b : MemBlock} (hb : blkHeadLen ≤ b.len.toInt) (data : Mem) :
    ∀ (n : Nat) {q : MemQueue}, memHeadLen ≤ q.head → q.head + b.len.toInt < 2 ^ 31 →
      unspan (spanPushAgain n q b data) = pushAgain n q b data := by
  intro n
  simp only [blkHeadLen] at hb
  induction n with
  | zero =>
    intro q _ _
    rfl
  | succ n ih =>
    intro q hlo hfit
    simp only [memHeadLen] at hlo
    unfold spanPushAgain pushAgain
    -- in range the sums of ints do not wrap, and both sides compare the same
    rw [wrap_of_lt (by omega) hfit, wrap_of_lt (by simp only [blkHeadLen]; omega)
      (by simp only [blkHeadLen]; omega)]
    by_cases hflat : q.tail ≤ q.head
    · rw [if_pos hflat, if_pos hflat]
      by_cases hend : q.len ≤ q.head + b.len.toInt
      swap
      · rw [if_neg hend, if_neg hend]
        exact spanAppend_eq data (by omega) hfit
      rw [if_pos hend, if_pos hend]
      simp only [decide_eq_true_eq]
      -- with or without the mark, it goes on with some ring
      generalize (if q.head + blkHeadLen ≤ q.len then q.writeAlign else q) = q₁
      by_cases hfull : memHeadLen = q₁.tail
      · rw [if_pos hfull, if_pos hfull]
        rfl
      · rw [if_neg hfull, if_neg hfull]
        -- the jump to the start goes round once more
        have hrest := ih (q := { q₁ with head := memHeadLen }) (Int.le_refl _)
          (by simp only [memHeadLen]; omega)
        rw [← hrest]
        unfold unspan
        rw [Option.map_map]
        rfl
    · have hlt : q.head < q.tail := by omega
      rw [if_neg hflat, if_neg hflat, if_pos hlt, if_pos hlt]
      by_cases hfull : q.tail ≤ q.head + b.len.toInt
      · rw [if_pos hfull, if_pos hfull]
        rfl
      · rw [if_neg hfull, if_neg hfull]
        exact spanAppend_eq data (by omega) hfit

/-- A get whose sums are ints is the get of `SServer.Queue.MemQueue`. -/
theorem spanGetAgain_eq : ∀ (n : Nat) {q : MemQueue}, memHeadLen ≤ q.tail →
    (q.tail ≠ q.head → q.tail + blkHeadLen < 2 ^ 31) →
    unspan (spanGetAgain n q) = getAgain n q := by
  intro n
  induction n with
  | zero =>
    intro q _ _
    rfl
  | succ n ih =>
    intro q hlo hfit
    simp only [memHeadLen] at hlo
    have hrest : unspan (spanGetAgain n { q with tail := memHeadLen }) =
        getAgain n { q with tail := memHeadLen } :=
      ih (Int.le_refl _) fun _ => by simp [memHeadLen, blkHeadLen]
    unfold spanGetAgain getAgain
    by_cases heq : q.tail = q.head
    · -- an empty ring: neither sum is looked at
      have hno : ¬ q.tail < q.head := by omega
      have hno' : ¬ q.head < q.tail := by omega
      rw [if_neg hno, if_neg hno, if_neg hno', if_neg hno']
      rfl
    have hwrap : wrap (q.tail + blkHeadLen) = q.tail + blkHeadLen :=
      wrap_of_lt (by simp only [blkHeadLen]; omega) (hfit heq)
    rw [hwrap]
    by_cases hflat : q.tail < q.head
    · rw [if_pos hflat, if_pos hflat]
      split <;> rfl
    have hlt : q.head < q.tail := by omega
    rw [if_neg hflat, if_neg hflat, if_pos hlt, if_pos hlt]
    by_cases hshort : q.len < q.tail + blkHeadLen
    · rw [if_pos hshort, if_pos hshort]
      exact hrest
    rw [if_neg hshort, if_neg hshort]
    by_cases halign : (MemBlock.decode (q.mem.ptr q.blkTail)).type = MemBlockType.blkAlign.code
    · rw [if_pos halign, if_pos halign, ← hrest]
      unfold unspan
      rw [Option.map_map]
      rfl
    · rw [if_neg halign, if_neg halign]
      rfl

/-- What `mq_push` answers when it touches nothing but ints. -/
theorem unspan_some {α : Type} {out : Option (α × MemQueue × List Span)} {r : α} {q : MemQueue}
    (h : unspan out = some (r, q)) : ∃ spans, out = some (r, q, spans) := by
  rcases Option.map_eq_some_iff.mp h with ⟨⟨r', q', spans⟩, rfl, heq⟩
  cases heq
  exact ⟨spans, rfl⟩

/-! ## What is touched -/

/-- The ranges of a block that stands inside the ring. -/
theorem blkSpans_inside {blk len size : Int} (hlo : memHeadLen ≤ blk) (hlen : blkHeadLen ≤ len)
    (hhi : blk + len ≤ size) : ∀ s ∈ blkSpans blk len, s.Inside size := by
  intro s hs
  simp only [blkSpans, List.mem_cons, List.not_mem_nil, or_false] at hs
  rcases hs with rfl | rfl
  · exact ⟨hlo, by simp only; omega⟩
  · refine ⟨?_, by simp only; omega⟩
    simp only [blkHeadLen]
    omega

/-- Those of a mark. -/
theorem alignSpans_inside {blk size : Int} (hlo : memHeadLen ≤ blk)
    (hhi : blk + blkHeadLen ≤ size) : ∀ s ∈ alignSpans blk, s.Inside size := by
  intro s hs
  simp only [blkHeadLen] at hhi
  simp only [alignSpans, List.mem_cons, List.not_mem_nil, or_false] at hs
  rcases hs with rfl | rfl
  · exact ⟨by simp only; omega, by simp only; omega⟩
  · exact ⟨by simp only; omega, by simp only; omega⟩

/-- **A push that does not overflow writes inside the ring.** -/
theorem spanPushAgain_inside {b : MemBlock} (hb : blkHeadLen ≤ b.len.toInt) (data : Mem) :
    ∀ (n : Nat) {q q' : MemQueue} {r : Int} {spans : List Span}, memHeadLen ≤ q.head →
      q.head < q.len → q.tail ≤ q.len → q.head + b.len.toInt < 2 ^ 31 →
      spanPushAgain n q b data = some (r, q', spans) → ∀ s ∈ spans, s.Inside q.len := by
  intro n
  simp only [blkHeadLen] at hb
  have happend : ∀ {q q' : MemQueue} {r : Int} {spans : List Span}, memHeadLen ≤ q.head →
      q.head + b.len.toInt ≤ q.len → spanAppend q b data = some (r, q', spans) →
      ∀ s ∈ spans, s.Inside q.len := by
    intro q q' r spans hlo hhi h
    unfold spanAppend at h
    rw [if_neg (by simp only [blkHeadLen]; omega)] at h
    cases h
    exact blkSpans_inside hlo hb hhi
  induction n with
  | zero =>
    intro q q' r spans _ _ _ _ h
    cases h
  | succ n ih =>
    intro q q' r spans hlo hhi htail hfit h
    simp only [memHeadLen] at hlo
    unfold spanPushAgain at h
    rw [wrap_of_lt (by omega) hfit, wrap_of_lt (by simp only [blkHeadLen]; omega)
      (by simp only [blkHeadLen]; omega)] at h
    by_cases hflat : q.tail ≤ q.head
    · rw [if_pos hflat] at h
      by_cases hend : q.len ≤ q.head + b.len.toInt
      swap
      · rw [if_neg hend] at h
        exact happend hlo (by omega) h
      rw [if_pos hend] at h
      -- the filler header is written only if it fits
      have hmark : ∀ s ∈ (if decide (q.head + blkHeadLen ≤ q.len) then alignSpans q.blkHead
          else []), s.Inside q.len := by
        intro s hs
        by_cases hfits : q.head + blkHeadLen ≤ q.len
        · rw [if_pos (decide_eq_true hfits)] at hs
          exact alignSpans_inside hlo hfits s hs
        · rw [if_neg (by simpa using hfits)] at hs
          cases hs
      simp only at h
      generalize (if decide (q.head + blkHeadLen ≤ q.len) then alignSpans q.blkHead else []) =
        marks at h hmark
      have hq₁ : ∃ q₁, (if decide (q.head + blkHeadLen ≤ q.len) = true then q.writeAlign else q) =
          q₁ ∧ q₁.tail = q.tail ∧ q₁.len = q.len := by
        split
        · exact ⟨_, rfl, rfl, rfl⟩
        · exact ⟨_, rfl, rfl, rfl⟩
      rcases hq₁ with ⟨q₁, hq₁, htail₁, hlen₁⟩
      rw [hq₁] at h
      by_cases hfull : memHeadLen = q₁.tail
      · rw [if_pos hfull] at h
        cases h
        exact hmark
      · rw [if_neg hfull] at h
        rcases Option.map_eq_some_iff.mp h with ⟨⟨r₂, q₂, more⟩, hmore, heq⟩
        cases heq
        intro s hs
        rcases List.mem_append.mp hs with hs | hs
        · exact hmark s hs
        · have hin := ih (q := { q₁ with head := memHeadLen }) (Int.le_refl _)
            (by simp only [memHeadLen]; omega) (by simp only; omega)
            (by simp only [memHeadLen]; omega) hmore s hs
          rw [← hlen₁]
          exact hin
    · have hlt : q.head < q.tail := by omega
      rw [if_neg hflat, if_pos hlt] at h
      by_cases hfull : q.tail ≤ q.head + b.len.toInt
      · rw [if_pos hfull] at h
        cases h
        simp
      · rw [if_neg hfull] at h
        exact happend hlo (by omega) h

/-- **A push that overflows writes behind the ring.** -/
theorem spanPush_overflows {q : MemQueue} {b : MemBlock} (hb : blkHeadLen ≤ b.len.toInt)
    (data : Mem) (hhi : q.head < q.len) (hint : q.len < 2 ^ 31)
    (hover : 2 ^ 31 ≤ q.head + b.len.toInt) :
    ∃ r q' spans, spanPush q b data = some (r, q', spans) ∧ q'.len = q.len ∧
      ∃ s ∈ spans, ¬ s.Inside q.len := by
  have hlt := b.len.toInt_lt
  simp only [blkHeadLen] at hb
  have hwrap : wrap (q.head + b.len.toInt) = q.head + b.len.toInt - 2 ^ 32 :=
    wrap_of_ge hover (by omega)
  have hcopy : spanPush q b data = spanAppend q b data := by
    unfold spanPush spanPushAgain
    rw [hwrap]
    by_cases hflat : q.tail ≤ q.head
    · rw [if_pos hflat, if_neg (by omega)]
    · have hwrapped : q.head < q.tail := by omega
      rw [if_neg hflat, if_pos hwrapped, if_neg (by omega)]
  rw [hcopy]
  unfold spanAppend
  rw [if_neg (by simp only [blkHeadLen]; omega)]
  refine ⟨_, _, _, rfl, rfl, ⟨q.blkHead + blkHeadLen, b.len.toInt - blkHeadLen⟩, by simp [blkSpans],
    ?_⟩
  intro hin
  have hend := hin.2
  simp only [MemQueue.blkHead] at hend
  omega

/-- **A get whose sums are ints reads inside the ring.** -/
theorem spanGetAgain_inside : ∀ (n : Nat) {q q' : MemQueue} {p : Option Int} {spans : List Span},
    memHeadLen ≤ q.tail → (q.tail ≠ q.head → q.tail + blkHeadLen < 2 ^ 31) →
    spanGetAgain n q = some (p, q', spans) → ∀ s ∈ spans, s.Inside q.len := by
  intro n
  induction n with
  | zero =>
    intro q q' p spans _ _ h
    cases h
  | succ n ih =>
    intro q q' p spans hlo hfit h
    simp only [memHeadLen] at hlo
    have hrest : ∀ {more : List Span},
        spanGetAgain n { q with tail := memHeadLen } = some (p, q', more) →
        ∀ s ∈ more, s.Inside q.len := fun hmore =>
      ih (q := { q with tail := memHeadLen }) (Int.le_refl _)
        (fun _ => by simp [memHeadLen, blkHeadLen]) hmore
    unfold spanGetAgain at h
    by_cases hflat : q.tail < q.head
    · rw [if_pos hflat] at h
      split at h <;>
      · cases h
        simp
    rw [if_neg hflat] at h
    by_cases hlt : q.head < q.tail
    swap
    · rw [if_neg hlt] at h
      cases h
      simp
    rw [if_pos hlt, wrap_of_lt (by simp only [blkHeadLen]; omega) (hfit (by omega))] at h
    by_cases hshort : q.len < q.tail + blkHeadLen
    · rw [if_pos hshort] at h
      exact hrest h
    rw [if_neg hshort] at h
    -- a whole header fits behind `tail`, so its type byte does
    have htype : Span.Inside ⟨q.blkTail + 8, 1⟩ q.len := by
      simp only [blkHeadLen] at hshort
      simp only [Span.Inside, MemQueue.blkTail, memHeadLen]
      omega
    split at h
    · rcases Option.map_eq_some_iff.mp h with ⟨⟨p₂, q₂, more⟩, hmore, heq⟩
      cases heq
      intro s hs
      rcases List.mem_cons.mp hs with rfl | hs
      · exact htype
      · exact hrest hmore s hs
    · cases h
      intro s hs
      rw [List.mem_singleton.mp hs]
      exact htype

/-! ## The end of a wrapped ring -/

/-- Where a wrapped ring was abandoned, a header could still be counted in an int. -/
def WrapOk (q : MemQueue) : Prop :=
  q.head < q.tail → ∀ w xs, Seg q.mem q.tail w xs → w < q.len → EndGap q.mem w q.len →
    w + blkHeadLen < 2 ^ 31

/-- Who leaves `tail` and the bytes behind it alone keeps this. -/
theorem WrapOk.congr {q q' : MemQueue} (h : WrapOk q) (hlt : q'.head < q'.tail → q.head < q.tail)
    (htail : q'.tail = q.tail) (hlen : q'.len = q.len)
    (hmem : ∀ a, q.tail ≤ a → q'.mem a = q.mem a) : WrapOk q' := by
  intro hwrapped w xs hs hw hgap
  rw [htail] at hs
  rw [hlen] at hw hgap
  refine h (hlt hwrapped) w xs (hs.congr fun a ha _ => hmem a ha) hw fun hfits => ?_
  rw [← hgap hfits]
  congr 1
  refine decode_congr fun i h0 _ => ?_
  have hle := hs.le
  exact (hmem (w + i) (by omega)).symm

/-- A flat ring has no such end. -/
theorem WrapOk.of_flat {q : MemQueue} (h : q.tail ≤ q.head) : WrapOk q := fun hlt => by omega

/-- A block that does not fit leaves room for a header's sum when `head` jumps back. -/
theorem WrapOk.wrap {q : MemQueue} {bs : List Blk} (h : Rep q bs) (hle : q.tail ≤ q.head)
    (hgap : EndGap q.mem q.head q.len) (hfit : q.head + blkHeadLen < 2 ^ 31) :
    WrapOk { q with head := memHeadLen } := by
  intro _ w xs hs hw hgap'
  have hseg := h.seg_of_le hle
  have hhead := h.bounds.2.1
  -- the contents of a flat ring end at `head`
  rcases hseg.unique hs (hgap.not_seg hw) (hgap'.not_seg hhead) with ⟨rfl, _⟩
  exact hfit

/-- **What a push does step by step**: it may mark the end of a flat ring, jump back, and
append; what each of these keeps, the push keeps. -/
theorem mqPush_keeps (I : MemQueue → Prop) {q q' : MemQueue} {bs : List Blk} (h : Rep q bs)
    {b : MemBlock} {data : Mem} {r : Int} (hI : I q)
    (happend : ∀ q₁ r q₂, I q₁ → Room q₁ b.len.toInt → q₁.append b data = some (r, q₂) → I q₂)
    (hmark : ∀ q₁, Rep q₁ bs → q₁.tail = q.tail → q₁.head = q.head → q.tail ≤ q.head → I q₁)
    (hjump : ∀ q₁, Rep q₁ bs → q₁.tail = q.tail → q₁.head = q.head → q.tail ≤ q.head →
      EndGap q₁.mem q₁.head q₁.len → memHeadLen ≠ q₁.tail → I { q₁ with head := memHeadLen })
    (hpush : mqPush q b data = some (r, q')) : I q' := by
  -- once `head` is below `tail`, the free room is a single gap
  have hwrapped : ∀ n q₁, I q₁ → q₁.head < q₁.tail →
      pushAgain (n + 1) q₁ b data = some (r, q') → I q' := by
    intro n q₁ hI₁ hlt h₁
    unfold pushAgain at h₁
    rw [if_neg (by omega), if_pos hlt] at h₁
    by_cases hfull : q₁.tail ≤ q₁.head + b.len.toInt
    · rw [if_pos hfull] at h₁
      cases h₁
      exact hI₁
    · rw [if_neg hfull] at h₁
      exact happend q₁ r q' hI₁ (Or.inr ⟨hlt, by omega⟩) h₁
  unfold mqPush at hpush
  by_cases hlt : q.head < q.tail
  · exact hwrapped 1 q hI hlt hpush
  have hle : q.tail ≤ q.head := by omega
  unfold pushAgain at hpush
  rw [if_pos hle] at hpush
  by_cases hend : q.len ≤ q.head + b.len.toInt
  swap
  · rw [if_neg hend] at hpush
    exact happend q r q' hI (Or.inl ⟨hle, by omega⟩) hpush
  rw [if_pos hend] at hpush
  -- no room before the end: the rest is marked
  rcases h.mark hle with ⟨q₁, hq₁, hrep₁, htail₁, hhead₁, hlen₁, hgap₁⟩
  simp only [hq₁] at hpush
  by_cases hfull : memHeadLen = q₁.tail
  · rw [if_pos hfull] at hpush
    cases hpush
    exact hmark _ hrep₁ htail₁ hhead₁ hle
  · rw [if_neg hfull] at hpush
    have hb := hrep₁.bounds
    -- `head` has jumped, which leaves it below `tail`
    refine hwrapped 0 _ (hjump q₁ hrep₁ htail₁ hhead₁ hle hgap₁ hfull) ?_ hpush
    simp only
    omega

/-- A block that finds room leaves the end of a wrapped ring where it is. -/
theorem append_wrapOk {q q' : MemQueue} {b : MemBlock} {data : Mem} {r : Int} (hw : WrapOk q)
    (hb : b.Pushable) (hroom : Room q b.len.toInt) (h : q.append b data = some (r, q')) :
    WrapOk q' := by
  unfold MemQueue.append at h
  rw [if_neg (by have := hb.1; omega)] at h
  cases h
  rcases hroom with ⟨hle, _⟩ | ⟨hlt, hfit⟩
  · refine WrapOk.of_flat ?_
    have hlen := hb.1
    simp only [blkHeadLen] at hlen
    simp only [MemQueue.copyBlk]
    omega
  · refine hw.congr (fun _ => hlt) rfl rfl fun a ha => ?_
    exact (copyBlk_frame q hb data a (Or.inr (by omega))).symm

/-- So does a push, or it makes such an end where a header still counts. -/
theorem mqPush_wrapOk {q q' : MemQueue} {bs : List Blk} (hrep : Rep q bs) (hw : WrapOk q)
    {b : MemBlock} (hb : b.Pushable) (hfit : q.head + b.len.toInt < 2 ^ 31) {data : Mem} {r : Int}
    (h : mqPush q b data = some (r, q')) : WrapOk q' := by
  refine mqPush_keeps WrapOk hrep hw ?_ ?_ ?_ h
  · exact fun q₁ r q₂ hw₁ hroom happ => append_wrapOk hw₁ hb hroom happ
  · intro q₁ _ htail hhead hle
    exact WrapOk.of_flat (by omega)
  · intro q₁ hrep₁ htail hhead hle hgap _
    have hlong := hb.1
    exact WrapOk.wrap hrep₁ (by omega) hgap (by omega)

/-- A block that `mq_get` has found stays in front while more is pushed. -/
theorem append_atBlock {q q' : MemQueue} {b : MemBlock} {data : Mem} {r : Int} (hat : AtBlock q)
    (hb : b.Pushable) (hroom : Room q b.len.toInt) (h : q.append b data = some (r, q')) :
    AtBlock q' := by
  have hlen := hb.1
  simp only [blkHeadLen] at hlen
  unfold MemQueue.append at h
  rw [if_neg (by simp only [blkHeadLen]; omega)] at h
  cases h
  rcases hat with hlt | ⟨hlt, hfits, htype⟩
  · exact Or.inl (by simp only [MemQueue.copyBlk]; omega)
  · have hbelow := hroom.below hlt
    refine Or.inr ⟨hbelow, hfits, ?_⟩
    have hsame : MemBlock.decode ((q.copyBlk q.head b data).mem.ptr q.tail) =
        MemBlock.decode (q.mem.ptr q.tail) := by
      refine decode_congr fun i h0 _ => ?_
      exact (copyBlk_frame q hb data (q.tail + i) (Or.inr (by omega))).symm
    exact hsame ▸ htype

/-- A push leaves the block that `mq_get` has found in place. -/
theorem mqPush_atBlock {q q' : MemQueue} {bs : List Blk} (hrep : Rep q bs) (hat : AtBlock q)
    {b : MemBlock} (hb : b.Pushable) {data : Mem} {r : Int}
    (h : mqPush q b data = some (r, q')) : AtBlock q' := by
  have hflat : q.tail ≤ q.head → q.tail < q.head := by
    intro hle
    rcases hat with hlt | ⟨hlt, _⟩
    · exact hlt
    · omega
  refine mqPush_keeps AtBlock hrep hat ?_ ?_ ?_ h
  · exact fun q₁ r q₂ hat₁ hroom happ => append_atBlock hat₁ hb hroom happ
  · intro q₁ _ htail hhead hle
    have hlt := hflat hle
    exact Or.inl (by omega)
  · -- the block now stands in the upper part of a wrapped ring
    intro q₁ hrep₁ htail hhead hle _ hstart
    have hlt := hflat hle
    have hbounds := hrep₁.bounds
    have hseg := hrep₁.seg_of_le (by omega)
    obtain ⟨b₁, rest, rfl, _⟩ := hseg.exists_cons (by omega)
    obtain ⟨hdec, hp, hfits⟩ := hseg.head_facts
    refine Or.inr ⟨by simp only; omega, by simp only; omega, ?_⟩
    simp only [hdec]
    exact hp.2

/-- A get leaves that end where it is, or rewinds and there is none. -/
theorem getAgain_wrapOk : ∀ (n : Nat) {q q' : MemQueue} {p : Option Int}, memHeadLen ≤ q.head →
    WrapOk q → getAgain n q = some (p, q') → WrapOk q' := by
  intro n
  induction n with
  | zero =>
    intro q q' p _ _ h
    cases h
  | succ n ih =>
    intro q q' p hhead hw h
    have hrewound : ∀ {p' : Option Int}, getAgain n { q with tail := memHeadLen } = some (p', q') →
        WrapOk q' := fun h => ih (q := { q with tail := memHeadLen }) hhead (.of_flat hhead) h
    unfold getAgain at h
    split at h
    · split at h <;>
      · cases h
        exact hw
    · split at h
      · split at h
        · exact hrewound h
        · split at h
          · exact hrewound h
          · cases h
            exact hw
      · cases h
        exact hw

/-- A pop keeps the end of a wrapped ring, and does not wrap a flat one. -/
theorem WrapOk.pop {q : MemQueue} {bs : List Blk} (hw : WrapOk q) (h : Rep q bs) (hat : AtBlock q) :
    WrapOk (mqPop q) := by
  obtain ⟨b, rest, rfl, hb, hp, _⟩ := h.step_over hat
  have hlen : (MemBlock.decode (q.mem.ptr q.tail)).len = b.head.len := by
    rw [← hb]
    rfl
  intro hlt w xs hs hwlen hgap
  simp only [mqPop, MemQueue.blkTail, hlen] at hlt hs hwlen hgap
  by_cases hwrapped : q.head < q.tail
  · exact hw hwrapped w (b :: xs) (.cons hb hp hs) hwlen hgap
  · have hseg := h.seg_of_le (by omega)
    have hle := hseg.head_le
    omega

/-- The sum that `mq_get` makes on `tail` is an int. -/
theorem Rep.get_fits {q : MemQueue} {bs : List Blk} (h : Rep q bs) (hw : WrapOk q)
    (hint : q.len < 2 ^ 31) (hne : q.tail ≠ q.head) : q.tail + blkHeadLen < 2 ^ 31 := by
  by_cases hlt : q.tail < q.head
  · have hfits := h.head_fits hlt
    have hhead := h.bounds.2.1
    omega
  · cases h with
    | flat _ hle _ _ => omega
    | wrapped hhead hlt' hle hlen hx hgap hy =>
      have hend := hw hlt' _ _ hx hlen hgap
      omega

/-! ## Runs -/

/-- A queue between two calls: the ring, whether an `mq_get` has returned a block that is not
popped yet, and all that has been touched so far. -/
structure BoundSt where
  q : MemQueue
  got : Bool
  spans : List Span

/-- The state after `mq_init`. -/
def boundInit (size : Int) : BoundSt := { q := mqInit size, got := false, spans := [] }

/-- The queue and its caller. -/
def BoundSt.seq (s : BoundSt) : SeqSt := { q := s.q, got := s.got, seen := [] }

/-- One call. -/
def boundCall : Call → BoundSt → Option BoundSt
  | .push b data, s => (spanPush s.q b data).map fun (_, q', spans) =>
      { q := q', got := s.got, spans := s.spans ++ spans }
  | .get, s => (spanGet s.q).map fun (p, q', spans) =>
      { q := q', got := p.isSome, spans := s.spans ++ spans ++ foundSpans q' p }
  | .pop, s => some { q := (spanPop s.q).1, got := false, spans := s.spans ++ (spanPop s.q).2 }

/-- An allowed call. -/
def boundStep (c : Call) (s : BoundSt) : Option BoundSt :=
  if Allowed c s.seq then boundCall c s else none

/-- What is to hold: both indices, and all that has been touched, are inside the ring. -/
structure InBounds (s : BoundSt) : Prop where
  head : memHeadLen ≤ s.q.head ∧ s.q.head < s.q.len
  tail : memHeadLen ≤ s.q.tail ∧ s.q.tail < s.q.len
  spans : ∀ x ∈ s.spans, x.Inside s.q.len

/-- The condition: the end of a pushed block, counted from `head`, is an int. -/
def EndIsInt : Call → BoundSt → Prop
  | .push b _, s => s.q.head + b.len.toInt < 2 ^ 31
  | _, _ => True

instance : ∀ (c : Call) (s : BoundSt), Decidable (EndIsInt c s)
  | .push b _, s => inferInstanceAs (Decidable (s.q.head + b.len.toInt < 2 ^ 31))
  | .get, _ => isTrue trivial
  | .pop, _ => isTrue trivial

/-- The ring is in order, and no sum of the next call overflows but that of a push. -/
structure BoundInv (s : BoundSt) : Prop where
  ring : ∃ bs, Rep s.q bs
  got : s.got = true → AtBlock s.q
  wrap : WrapOk s.q
  size : s.q.len < 2 ^ 31
  spans : ∀ x ∈ s.spans, x.Inside s.q.len

/-- The invariant says that nothing outside was touched. -/
theorem BoundInv.inBounds {s : BoundSt} (h : BoundInv s) : InBounds s := by
  rcases h.ring with ⟨bs, hrep⟩
  have hb := hrep.bounds
  exact ⟨⟨hb.1, hb.2.1⟩, ⟨hb.2.2.1, hb.2.2.2⟩, h.spans⟩

/-- More ranges inside the same ring. -/
theorem BoundInv.more {s : BoundSt} (h : BoundInv s) {spans : List Span} {size : Int}
    (hsize : size = s.q.len) (hmore : ∀ x ∈ spans, x.Inside s.q.len) :
    ∀ x ∈ s.spans ++ spans, x.Inside size := by
  intro x hx
  rw [hsize]
  rcases List.mem_append.mp hx with hx | hx
  · exact h.spans x hx
  · exact hmore x hx

/-- The block that `tail` stands on is inside the ring. -/
theorem Rep.block_inside {q : MemQueue} {bs : List Blk} (h : Rep q bs) (hat : AtBlock q) :
    ∃ len : Int, (MemBlock.decode (q.mem.ptr q.tail)).len.toInt = len ∧ blkHeadLen ≤ len ∧
      memHeadLen ≤ q.tail ∧ q.tail + len < q.len := by
  obtain ⟨b, rest, _, hb, hp, hrep⟩ := h.step_over hat
  have hlen : (MemBlock.decode (q.mem.ptr q.tail)).len = b.head.len := by
    rw [← hb]
    rfl
  exact ⟨b.head.len.toInt, by rw [hlen], hp.1, h.bounds.2.2.1, hrep.bounds.2.2.2⟩

/-- **A push**, on either side of the condition. -/
theorem boundPush_cases {s t : BoundSt} (h : BoundInv s) {b : MemBlock} (hb : b.Pushable)
    {data : Mem} (hstep : boundCall (.push b data) s = some t) :
    EndIsInt (.push b data) s ∧ BoundInv t ∨ ¬ EndIsInt (.push b data) s ∧ ¬ InBounds t := by
  rcases h.ring with ⟨bs, hrep⟩
  have hbounds := hrep.bounds
  by_cases hfit : s.q.head + b.len.toInt < 2 ^ 31
  · refine Or.inl ⟨hfit, ?_⟩
    obtain ⟨r, q', hpush, hlen, hres⟩ := mqPush_spec hrep hb data
    have hsame : unspan (spanPush s.q b data) = mqPush s.q b data :=
      spanPushAgain_eq hb.1 data 2 hbounds.1 hfit
    rcases unspan_some (hsame.trans hpush) with ⟨spans, hspan⟩
    have hinside : ∀ x ∈ spans, x.Inside s.q.len :=
      spanPushAgain_inside hb.1 data 2 hbounds.1 hbounds.2.1 (Int.le_of_lt hbounds.2.2.2) hfit hspan
    simp only [boundCall, hspan, Option.map_some] at hstep
    cases hstep
    refine ⟨?_, fun hgot => mqPush_atBlock hrep (h.got hgot) hb hpush,
      mqPush_wrapOk hrep h.wrap hb hfit hpush, ?_, h.more hlen hinside⟩
    · rcases hres with ⟨_, hrep'⟩ | ⟨_, hrep'⟩
      · exact ⟨_, hrep'⟩
      · exact ⟨_, hrep'⟩
    · simp only [hlen]
      exact h.size
  · refine Or.inr ⟨hfit, fun hok => ?_⟩
    rcases spanPush_overflows hb.1 data hbounds.2.1 h.size (by omega) with
      ⟨r, q', spans, hspan, hlen, x, hx, hout⟩
    simp only [boundCall, hspan, Option.map_some] at hstep
    cases hstep
    have hin := hok.spans x (List.mem_append_right _ hx)
    simp only [hlen] at hin
    exact hout hin

/-- **A get** reads inside the ring, and so is the block it finds. -/
theorem boundGet_inv {s t : BoundSt} (h : BoundInv s) (hstep : boundCall .get s = some t) :
    BoundInv t := by
  rcases h.ring with ⟨bs, hrep⟩
  have hbounds := hrep.bounds
  have hfits : s.q.tail ≠ s.q.head → s.q.tail + blkHeadLen < 2 ^ 31 :=
    hrep.get_fits h.wrap h.size
  obtain ⟨p, q', hget, hlen, _, hrep', hres⟩ := mqGet_spec hrep
  have hsame : unspan (spanGet s.q) = mqGet s.q := spanGetAgain_eq 2 hbounds.2.2.1 hfits
  rcases unspan_some (hsame.trans hget) with ⟨spans, hspan⟩
  have hinside : ∀ x ∈ spans, x.Inside s.q.len :=
    spanGetAgain_inside 2 hbounds.2.2.1 hfits hspan
  have hwrap : WrapOk q' := getAgain_wrapOk 2 hbounds.1 h.wrap hget
  simp only [boundCall, hspan, Option.map_some] at hstep
  cases hstep
  have hfound : ∀ x ∈ foundSpans q' p, x.Inside s.q.len := by
    rcases hres with ⟨rfl, _⟩ | ⟨rfl, hat⟩
    · simp [foundSpans]
    · rcases hrep'.block_inside hat with ⟨len, hdec, hlong, hlo, hhi⟩
      rw [foundSpans, hdec]
      rw [hlen] at hhi
      exact blkSpans_inside hlo hlong (Int.le_of_lt hhi)
  refine ⟨⟨_, hrep'⟩, fun hgot => ?_, hwrap, by rw [hlen]; exact h.size, ?_⟩
  · rcases hres with ⟨rfl, _⟩ | ⟨_, hat⟩
    · simp at hgot
    · exact hat
  · intro x hx
    rcases List.mem_append.mp hx with hx | hx
    · exact h.more hlen hinside x hx
    · rw [hlen]
      exact hfound x hx

/-- **A pop** reads the length of the block that was found. -/
theorem boundPop_inv {s t : BoundSt} (h : BoundInv s) (hgot : s.got = true)
    (hstep : boundCall .pop s = some t) : BoundInv t := by
  rcases h.ring with ⟨bs, hrep⟩
  have hat := h.got hgot
  obtain ⟨_, rest, _, _, hrep'⟩ := mqPop_spec hrep hat
  rcases hrep.block_inside hat with ⟨len, hdec, hlong, hlo, hhi⟩
  have hsize := h.size
  simp only [blkHeadLen, memHeadLen] at hlong hlo
  have hpop : (spanPop s.q).1 = mqPop s.q := by
    unfold spanPop mqPop
    simp only [MemQueue.blkTail, hdec]
    rw [wrap_of_lt (by omega) (by omega)]
  cases hstep
  rw [hpop]
  refine ⟨⟨_, hrep'⟩, by simp, h.wrap.pop hrep hat, h.size, h.more rfl fun x hx => ?_⟩
  rw [spanPop, List.mem_singleton] at hx
  rw [hx]
  simp only [Span.Inside, MemQueue.blkTail, memHeadLen]
  omega

/-- **One call**, on either side of the condition: only a push whose end is no int leaves the
ring. -/
theorem boundStep_cases (c : Call) (s t : BoundSt) (h : BoundInv s)
    (hstep : boundStep c s = some t) :
    EndIsInt c s ∧ BoundInv t ∨ ¬ EndIsInt c s ∧ ¬ InBounds t := by
  unfold boundStep at hstep
  by_cases hc : Allowed c s.seq
  swap
  · rw [if_neg hc] at hstep
    cases hstep
  rw [if_pos hc] at hstep
  cases c with
  | push b data => exact boundPush_cases h hc hstep
  | get => exact Or.inl ⟨trivial, boundGet_inv h hstep⟩
  | pop => exact Or.inl ⟨trivial, boundPop_inv h hc hstep⟩

/-- A queue that `mq_init` set up. -/
theorem boundInit_inv {size : Int32} (hsize : memHeadLen < size.toInt) :
    BoundInv (boundInit size.toInt) :=
  ⟨⟨[], rep_init hsize⟩, by simp [boundInit], WrapOk.of_flat (Int.le_refl _), size.toInt_lt,
    by simp [boundInit]⟩

/-- **Nothing outside the ring is touched** exactly when no push overflows: in every state
of a run of allowed calls on a queue of any length, `head` and `tail` are inside the
ring, and so is every byte that `mq_push` writes, every header byte that `mq_get` and
`mq_pop` read and every block that `mq_get` returns, if and only if at each push
`head + b->len` is an int. -/
theorem in_bounds_iff {size : Int32} (hsize : memHeadLen < size.toInt) (cs : List Call) :
    Throughout boundStep InBounds cs (boundInit size.toInt) ↔
      Along boundStep EndIsInt cs (boundInit size.toInt) :=
  throughout_iff_along BoundInv (fun _ => BoundInv.inBounds) boundStep_cases (boundInit_inv hsize)

/-- The run with a wrap and a refused push stays inside its ring. -/
theorem in_bounds_iff_wrapRun :
    (exec boundStep wrapRun (boundInit 64)).isSome ∧
      Throughout boundStep InBounds wrapRun (boundInit 64) := by
  have hiff := in_bounds_iff (show memHeadLen < (64 : Int32).toInt by decide) wrapRun
  exact ⟨by decide +kernel, hiff.mpr (by decide +kernel)⟩

/-- A block as long as an int can say. -/
def longestBlock : List Call :=
  [.push ⟨0, 7, MemBlockType.blkData.code, 2147483647⟩ (fun _ => 0)]

/-- The sum with `head` is negative, and the block is copied over the end of the ring. -/
theorem longestBlock_not_inBounds :
    ¬ Throughout boundStep InBounds longestBlock (boundInit 64) := by
  intro hok
  have hsome : (boundStep (.push ⟨0, 7, MemBlockType.blkData.code, 2147483647⟩ (fun _ => 0))
      (boundInit 64)).isSome := by
    decide +kernel
  rcases Option.isSome_iff_exists.mp hsome with ⟨t, ht⟩
  have hsize : memHeadLen < (64 : Int32).toInt := by decide
  rcases boundStep_cases _ _ t (boundInit_inv hsize) ht with ⟨hint, _⟩ | ⟨_, hbad⟩
  · exact absurd hint (by decide)
  · exact hbad (throughout_head (hok.2 t ht))

end SServer.Queue
