import SServer.Queue.Race

/-!
# SServer.Queue.RaceSafe — when no interleaving loses a block

The proof is by rely and guarantee. `ProducerStep` is all that the consumer
has to know about a store of the producer, `ConsumerStep` all that the producer
has to know about a store of the consumer. Each party's own facts (`PushInv`,
`GetInv`, one per program counter) survive the other's stores, with one
exception: a rewind of `tail` refutes the producer's `head < tail` between its
two comparisons. Without that step the contents are conserved; with it they
are not, and the run at the end of the file shows it.

* `pushStep_inv`, `getStep_inv`: the steps of each party keep the invariant, the consumer's but
  for that rewind.
* `race_conserves`: no block is lost, repeated or reordered in a run without it.
* `lostPush_not_conserved`: the run at the end: a push has returned `0`, and its block is
  nowhere.
-/

namespace SServer.Queue

open SServer.Lib

/-! ## Facts per program counter -/

/-- What the producer knows at each access. -/
def PushInv (q : MemQueue) (b : MemBlock) (data : Mem) : PushPc → Prop
  | .idle | .test1Head | .roomHead => True
  | .test1Tail h | .roomTail h => h = q.head
  | .endHead | .alignHead | .alignType => q.tail ≤ q.head
  | .alignLen blk => q.tail ≤ q.head ∧ blk = q.head ∧
      (MemBlock.decode (q.mem.ptr q.head)).type = MemBlockType.blkAlign.code
  | .startTail => q.tail ≤ q.head ∧ EndGap q.mem q.head q.len
  | .wrapStore => q.tail ≤ q.head ∧ EndGap q.mem q.head q.len ∧ memHeadLen < q.tail
  | .test2Head => q.head < q.tail
  | .test2Tail h => h = q.head ∧ q.head < q.tail
  | .copy => Room q b.len.toInt
  | .bumpLoad => Room q b.len.toInt ∧ blkAt (q.mem.ptr q.head) = b.withData data
  | .bumpStore h => h = q.head ∧ Room q b.len.toInt ∧
      blkAt (q.mem.ptr q.head) = b.withData data
  | .ret r published => r = 0 ↔ published = true

/-- What the consumer knows at each access. A value of `head` it has read may be
out of date; what it concludes from it still holds. -/
def GetInv (q : MemQueue) : GetPc → Prop
  | .idle | .fullHead | .fullTail _ | .fitHead | .wrapHead => True
  | .fitTail h => q.tail + blkHeadLen ≤ h → AtBlock q
  | .flatTail => AtBlock q
  | .wrapTail h => h < q.tail → q.head < q.tail
  | .endTail => q.head < q.tail
  | .typeTail => q.head < q.tail ∧ q.tail + blkHeadLen ≤ q.len
  | .rewind => AtEnd q
  | .got p | .popLoad p => p = q.tail ∧ AtBlock q
  | .popStore p t => p = q.tail ∧ t = q.tail ∧ AtBlock q

/-- The invariant of the interleaved system. -/
structure RaceInv (s : RaceSt) : Prop where
  conserved : Conserved s
  pushable : s.push ≠ .idle → s.b.Pushable
  producer : PushInv s.q s.b s.data s.push
  consumer : GetInv s.q s.get

/-- A fresh queue, and nobody inside a call. -/
theorem raceInv_init {size : Int} (h : memHeadLen < size) : RaceInv (raceInit size) where
  conserved := ⟨[], rep_init h, rfl⟩
  pushable := fun hne => absurd rfl hne
  producer := trivial
  consumer := trivial

/-! ## What the consumer relies on -/

/-- What a store of the producer leaves true for the consumer. -/
structure ProducerStep (q q' : MemQueue) : Prop where
  tail : q'.tail = q.tail
  len : q'.len = q.len
  block : AtBlock q → AtBlock q'
  atEnd : AtEnd q → AtEnd q'
  below : q.head < q.tail → q'.head < q'.tail

/-- The consumer's facts survive the producer's stores. -/
theorem GetInv.stable {q q' : MemQueue} {pc : GetPc} (h : GetInv q pc)
    (hs : ProducerStep q q') : GetInv q' pc := by
  cases pc with
  | idle | fullHead | fullTail _ | fitHead | wrapHead => trivial
  | fitTail v =>
    intro hle
    rw [hs.tail] at hle
    exact hs.block (h hle)
  | flatTail => exact hs.block h
  | wrapTail v =>
    intro hlt
    rw [hs.tail] at hlt
    exact hs.below (h hlt)
  | endTail => exact hs.below h
  | typeTail =>
    refine ⟨hs.below h.1, ?_⟩
    rw [hs.tail, hs.len]
    exact h.2
  | rewind => exact hs.atEnd h
  | got p | popLoad p => exact ⟨h.1.trans hs.tail.symm, hs.block h.2⟩
  | popStore p t =>
    exact ⟨h.1.trans hs.tail.symm, h.2.1.trans hs.tail.symm, hs.block h.2.2⟩

/-- A step that stores nothing. -/
theorem ProducerStep.refl (q : MemQueue) : ProducerStep q q := ⟨rfl, rfl, id, id, id⟩

/-- Bytes written behind `head` and, in a wrapped ring, below `tail`. -/
theorem ProducerStep.write {q : MemQueue} {m' : Mem} {n : Int}
    (hroom : q.head < q.tail → q.head + n ≤ q.tail)
    (hm : ∀ a, a < q.head ∨ q.head + n ≤ a → q.mem a = m' a) :
    ProducerStep q { q with mem := m' } := by
  -- in a wrapped ring the header at `tail` is out of reach
  have htype : q.head < q.tail → (MemBlock.decode (m'.ptr q.tail)).type
      = (MemBlock.decode (q.mem.ptr q.tail)).type := by
    intro hlt
    have hfit := hroom hlt
    exact (hm (q.tail + 8) (Or.inr (by omega))).symm
  refine ⟨rfl, rfl, ?_, ?_, fun hlt => hlt⟩
  · rintro (hlt | ⟨hlt, hfit, hne⟩)
    · exact Or.inl hlt
    · refine Or.inr ⟨hlt, hfit, ?_⟩
      rw [htype hlt]
      exact hne
  · rintro ⟨hlt, hend⟩
    refine ⟨hlt, ?_⟩
    rw [htype hlt]
    exact hend

/-- Advancing `head` inside the room behind it. -/
theorem ProducerStep.publish {q : MemQueue} {n : Int} (hn : 0 ≤ n) (hroom : Room q n) :
    ProducerStep q { q with head := q.head + n } := by
  have hbelow : q.head < q.tail → q.head + n < q.tail := hroom.below
  refine ⟨rfl, rfl, ?_, ?_, hbelow⟩
  · rintro (hlt | ⟨hlt, hrest⟩)
    · left
      simp only
      omega
    · exact Or.inr ⟨hbelow hlt, hrest⟩
  · rintro ⟨hlt, hend⟩
    exact ⟨hbelow hlt, hend⟩

/-- A flat ring that is not empty has a block header at `tail`, before the end. -/
theorem Rep.header_at_tail {q : MemQueue} {bs : List Blk} (h : Rep q bs)
    (hlt : q.tail < q.head) : q.tail + blkHeadLen ≤ q.len ∧
      (MemBlock.decode (q.mem.ptr q.tail)).type ≠ MemBlockType.blkAlign.code := by
  rcases (h.seg_of_le (by omega)).exists_cons hlt with ⟨b, rest, _, hb, hp, _⟩
  have hfit := h.head_fits hlt
  have hlen := h.bounds
  refine ⟨by omega, ?_⟩
  have hhead : MemBlock.decode (q.mem.ptr q.tail) = b.head := by rw [← hb, blkAt]
  rw [hhead]
  exact hp.2

/-- Jumping back to the beginning of a ring that `tail` has left. -/
theorem ProducerStep.wrap {q : MemQueue} {bs : List Blk} (h : Rep q bs) (hle : q.tail ≤ q.head)
    (hne : memHeadLen < q.tail) : ProducerStep q { q with head := memHeadLen } := by
  refine ⟨rfl, rfl, ?_, ?_, fun hlt => by omega⟩
  · rintro (hlt | ⟨hlt, _⟩)
    · exact Or.inr ⟨hne, h.header_at_tail hlt⟩
    · omega
  · rintro ⟨hlt, _⟩
    omega

/-! ## What the producer relies on -/

/-- What a store of the consumer leaves true for the producer. -/
structure ConsumerStep (q q' : MemQueue) : Prop where
  head : q'.head = q.head
  mem : q'.mem = q.mem
  len : q'.len = q.len
  flat : q.tail ≤ q.head → q.tail ≤ q'.tail ∧ q'.tail ≤ q.head
  room : ∀ n, Room q n → Room q' n

/-- The producer's facts survive a store of the consumer, unless they are those
of the two comparisons and the store moves `tail` to or below `head`. -/
theorem PushInv.stable {q q' : MemQueue} {b : MemBlock} {data : Mem} {pc : PushPc}
    (h : PushInv q b data pc) (hs : ConsumerStep q q')
    (htests : BetweenTests pc → q.head < q.tail → q'.head < q'.tail) : PushInv q' b data pc := by
  cases pc with
  | idle | test1Head | roomHead => trivial
  | test1Tail v | roomTail v => exact h.trans hs.head.symm
  | endHead | alignHead | alignType =>
    unfold PushInv
    rw [hs.head]
    exact (hs.flat h).2
  | alignLen blk =>
    unfold PushInv
    rw [hs.head, hs.mem]
    exact ⟨(hs.flat h.1).2, h.2⟩
  | startTail =>
    unfold PushInv
    rw [hs.head, hs.mem, hs.len]
    exact ⟨(hs.flat h.1).2, h.2⟩
  | wrapStore =>
    have hflat := hs.flat h.1
    unfold PushInv
    rw [hs.head, hs.mem, hs.len]
    exact ⟨hflat.2, h.2.1, by have := h.2.2; omega⟩
  | test2Head => exact htests trivial h
  | test2Tail v => exact ⟨h.1.trans hs.head.symm, htests trivial h.2⟩
  | copy => exact hs.room _ h
  | bumpLoad =>
    refine ⟨hs.room _ h.1, ?_⟩
    rw [hs.head, hs.mem]
    exact h.2
  | bumpStore v =>
    refine ⟨h.1.trans hs.head.symm, hs.room _ h.2.1, ?_⟩
    rw [hs.head, hs.mem]
    exact h.2.2
  | ret r published => exact h

/-- Rewinding `tail` at the abandoned end. -/
theorem ConsumerStep.rewind {q : MemQueue} {bs : List Blk} (h : Rep q bs) (hend : AtEnd q) :
    ConsumerStep q { q with tail := memHeadLen } := by
  have hb := h.bounds
  refine ⟨rfl, rfl, rfl, fun hle => ?_, fun n hroom => ?_⟩
  · have hlt := hend.1
    omega
  · rcases hroom with ⟨hle, _⟩ | ⟨_, hfit⟩
    · have hlt := hend.1
      omega
    · exact Or.inl ⟨hb.1, by simp only; omega⟩

/-- Stepping over the block at `tail` never passes `head`. -/
theorem ConsumerStep.pop {q : MemQueue} {bs : List Blk} (h : Rep q bs) {b : Blk}
    (hb : blkAt (q.mem.ptr q.tail) = b) (hp : b.head.Pushable) (hat : AtBlock q) :
    ConsumerStep q { q with tail := q.tail + b.head.len.toInt } := by
  have hpos := hp.1
  simp only [blkHeadLen] at hpos
  have hflat : q.tail ≤ q.head → q.tail + b.head.len.toInt ≤ q.head := by
    intro hle
    rcases hat with hlt | ⟨hlt, _⟩
    · rcases (h.seg_of_le hle).exists_cons hlt with ⟨b', rest, _, hb', _, hrest⟩
      rw [← hb, hb']
      exact hrest.le
    · omega
  refine ⟨rfl, rfl, rfl, fun hle => ⟨by simp only; omega, hflat hle⟩, fun n hroom => ?_⟩
  rcases hroom with ⟨hle, hfit⟩ | ⟨hlt, hfit⟩
  · exact Or.inl ⟨hflat hle, hfit⟩
  · exact Or.inr ⟨by simp only; omega, by simp only; omega⟩

/-! ## The steps keep the invariant -/

/-- Inside a call of `mq_push` that has not moved `head` over its block. -/
def Unpublished : PushPc → Prop
  | .idle | .ret _ true => False
  | _ => True

/-- Before it is published, a block is not in flight. -/
theorem inflight_eq_nil {s : RaceSt} (h : Unpublished s.push) : s.inflight = [] := by
  unfold RaceSt.inflight
  split
  · next hr =>
    rw [hr] at h
    exact h.elim
  · rfl

/-- A step of the producer that keeps the contents and publishes nothing. -/
theorem RaceInv.store {s : RaceSt} (h : RaceInv s) {p p' : PushPc} (hpc : s.push = p)
    (hout : Unpublished p) (hin : Unpublished p') {q' : MemQueue} (hq : ProducerStep s.q q')
    (hrep : ∀ bs, Rep s.q bs → Rep q' bs) (hp : PushInv q' s.b s.data p') :
    RaceInv { s with q := q', push := p' } where
  conserved := by
    rcases h.conserved with ⟨bs, hbs, heq⟩
    refine ⟨bs, hrep bs hbs, ?_⟩
    rw [inflight_eq_nil hin]
    rw [inflight_eq_nil (hpc ▸ hout)] at heq
    exact heq
  pushable := by
    intro _
    apply h.pushable
    intro hidle
    rw [hpc] at hidle
    rw [hidle] at hout
    exact hout
  producer := hp
  consumer := h.consumer.stable hq

/-- A step of the producer that only reads. -/
theorem RaceInv.move {s : RaceSt} (h : RaceInv s) {p p' : PushPc} (hpc : s.push = p)
    (hout : Unpublished p) (hin : Unpublished p') (hp : PushInv s.q s.b s.data p') :
    RaceInv { s with push := p' } :=
  h.store hpc hout hin (ProducerStep.refl s.q) (fun _ => id) hp

/-- A read that decides a branch. -/
theorem RaceInv.branch {s : RaceSt} (h : RaceInv s) {p p₁ p₂ : PushPc} (hpc : s.push = p)
    (hout : Unpublished p) {c : Prop} [Decidable c] (h₁ : Unpublished p₁) (h₂ : Unpublished p₂)
    (hp₁ : c → PushInv s.q s.b s.data p₁) (hp₂ : ¬ c → PushInv s.q s.b s.data p₂) :
    RaceInv { s with push := if c then p₁ else p₂ } := by
  by_cases hc : c
  · rw [if_pos hc]
    exact h.move hpc hout h₁ (hp₁ hc)
  · rw [if_neg hc]
    exact h.move hpc hout h₂ (hp₂ hc)

/-- **The block is published**: `head` moves over it, and it is in flight until the call
returns. -/
theorem RaceInv.publish {s : RaceSt} (h : RaceInv s) (hpc : s.push = .bumpStore s.q.head)
    (hroom : Room s.q s.b.len.toInt) (hblk : blkAt (s.q.mem.ptr s.q.head) = s.b.withData s.data) :
    RaceInv { s with q := { s.q with head := s.q.head + s.b.len.toInt }, push := .ret 0 true } := by
  have hb := h.pushable (by simp [hpc])
  have hlen := hb.1
  simp only [blkHeadLen] at hlen
  rcases h.conserved with ⟨bs, hrep, heq⟩
  rw [inflight_eq_nil (by rw [hpc]; trivial), List.append_nil] at heq
  constructor
  · refine ⟨_, hrep.publish hblk hb hroom, ?_⟩
    simp [RaceSt.inflight, ← heq]
  · exact fun _ => hb
  · simp [PushInv]
  · exact h.consumer.stable (ProducerStep.publish (by omega) hroom)

/-- **`mq_push` returns**: it has published its block exactly when it returns `0`, so what
was in flight is pushed now. -/
theorem RaceInv.returns {s : RaceSt} (h : RaceInv s) {r : Int} {published : Bool}
    (hpc : s.push = .ret r published) (hret : r = 0 ↔ published = true) :
    RaceInv { s with
      push := .idle
      pushed := if r = 0 then s.pushed ++ [s.b.withData s.data] else s.pushed } := by
  rcases h.conserved with ⟨bs, hrep, heq⟩
  constructor
  · refine ⟨bs, hrep, ?_⟩
    by_cases hr : r = 0
    · rw [hret.mp hr] at hpc
      simpa [RaceSt.inflight, hpc, hr] using heq
    · have hp : published = false := by simpa [hr] using hret
      rw [hp] at hpc
      simpa [RaceSt.inflight, hpc, hr] using heq
  · exact fun hne => absurd rfl hne
  · trivial
  · exact h.consumer

/-- **The producer's steps keep the invariant**, whatever the consumer has done. -/
theorem pushStep_inv {s t : RaceSt} (h : RaceInv s) (hstep : pushStep s = some t) :
    RaceInv t := by
  have hprod := h.producer
  unfold pushStep at hstep
  cases hpc : s.push with
  | idle =>
    rw [hpc] at hstep
    cases hstep
  | test1Head =>
    rw [hpc] at hstep
    cases hstep
    exact h.move hpc trivial trivial rfl
  | test1Tail v =>
    rw [hpc] at hstep hprod
    cases hstep
    -- `head` is the producer's own, so the value read is still there
    have hv : v = s.q.head := hprod
    refine h.branch hpc trivial trivial trivial (fun hle => ?_) (fun hlt => ?_)
    · rw [hv] at hle
      exact hle
    · show s.q.head < s.q.tail
      omega
  | endHead =>
    rw [hpc] at hstep hprod
    cases hstep
    refine h.branch hpc trivial trivial trivial (fun _ => hprod) (fun hfit => ?_)
    exact Or.inl ⟨hprod, by omega⟩
  | alignHead =>
    rw [hpc] at hstep hprod
    cases hstep
    refine h.branch hpc trivial trivial trivial (fun _ => hprod) (fun hshort => ?_)
    -- too short for a header: the gap needs no mark
    exact ⟨hprod, fun hfit => absurd hfit hshort⟩
  | alignType =>
    rw [hpc] at hstep hprod
    cases hstep
    unfold PushInv at hprod
    refine h.store hpc trivial (by trivial) ?_ (fun _ hbs => hbs.setType hprod .blkAlign) ?_
    · -- behind `head` the consumer looks at nothing
      exact ProducerStep.write (fun hlt => by omega) (setType_frame s.q .blkAlign)
    · exact ⟨hprod, rfl, setType_type s.q s.q.head .blkAlign⟩
  | alignLen blk =>
    rw [hpc] at hstep hprod
    cases hstep
    rcases hprod with ⟨hle, rfl, htype⟩
    refine h.store hpc trivial (by trivial) ?_ (fun _ hbs => hbs.setLen hle _) ?_
    · exact ProducerStep.write (fun hlt => by omega) (setLen_frame s.q _)
    · refine ⟨hle, fun _ => ?_⟩
      rw [← htype]
      exact setLen_type s.q s.q.head _
  | startTail =>
    rw [hpc] at hstep hprod
    cases hstep
    refine h.branch hpc trivial trivial trivial (fun _ => by simp [PushInv]) (fun hne => ?_)
    rcases h.conserved with ⟨bs, hrep, _⟩
    have hb := hrep.bounds
    exact ⟨hprod.1, hprod.2, by omega⟩
  | wrapStore =>
    rw [hpc] at hstep hprod
    cases hstep
    rcases hprod with ⟨hle, hgap, hne⟩
    rcases h.conserved with ⟨bs, hrep, _⟩
    -- `head` jumps back below `tail`: the blocks ahead are now those up to the gap
    refine h.store hpc trivial (by trivial) (ProducerStep.wrap hrep hle hne) ?_ trivial
    exact fun _ hbs => hbs.wrap hle hgap (by omega)
  | test2Head =>
    rw [hpc] at hstep hprod
    cases hstep
    exact h.move hpc trivial trivial ⟨rfl, hprod⟩
  | test2Tail v =>
    rw [hpc] at hstep hprod
    cases hstep
    rcases hprod with ⟨rfl, hlt⟩
    refine h.branch hpc trivial trivial trivial (fun _ => trivial) (fun hge => ?_)
    -- `tail` has not been rewound since the first comparison, so this one agrees with it
    exact absurd hlt hge
  | roomHead =>
    rw [hpc] at hstep hprod
    cases hstep
    exact h.move hpc trivial trivial rfl
  | roomTail v =>
    rw [hpc] at hstep hprod
    cases hstep
    unfold PushInv at hprod
    have hlen := (h.pushable (by simp [hpc])).1
    refine h.branch hpc trivial trivial trivial (fun _ => by simp [PushInv]) (fun hfit => ?_)
    simp only [blkHeadLen] at hlen
    exact Or.inr ⟨by omega, by omega⟩
  | copy =>
    rw [hpc] at hstep hprod
    cases hstep
    have hb := h.pushable (by simp [hpc])
    refine h.store hpc trivial (by trivial) ?_ (fun _ hbs => hbs.copyBlk hb hprod s.data) ?_
    · refine ProducerStep.write (fun hlt => ?_) (copyBlk_frame s.q hb s.data)
      -- the bytes written are free: below `tail`, where the ring is wrapped
      have hbelow := Room.below hprod hlt
      omega
    · exact ⟨hprod, blkAt_copyBlk s.q s.b s.data⟩
  | bumpLoad =>
    rw [hpc] at hstep hprod
    cases hstep
    exact h.move hpc trivial trivial ⟨rfl, hprod⟩
  | bumpStore v =>
    rw [hpc] at hstep hprod
    cases hstep
    rcases hprod with ⟨rfl, hroom, hblk⟩
    exact h.publish hpc hroom hblk
  | ret r published =>
    rw [hpc] at hstep hprod
    cases hstep
    exact h.returns hpc hprod

/-- A step of the consumer that only reads. -/
theorem RaceInv.read {s : RaceSt} (h : RaceInv s) {p : GetPc} (hp : GetInv s.q p) :
    RaceInv { s with get := p } where
  conserved := h.conserved
  pushable := h.pushable
  producer := h.producer
  consumer := hp

/-- **The consumer's steps keep the invariant**, but for a rewind between the
producer's two comparisons. -/
theorem getStep_inv {s : RaceSt} (h : RaceInv s)
    (hno : NoRewindBetween .consumer s) : RaceInv (getStep s) := by
  have hcons := h.consumer
  rcases h.conserved with ⟨bs, hrep, heq⟩
  unfold getStep
  cases hpc : s.get with
  | idle => exact h.read trivial
  | fullHead => exact h.read trivial
  | fullTail v =>
    simp only
    split
    · exact h.read trivial
    · exact h.read trivial
  | fitHead =>
    refine h.read ?_
    intro hfit
    -- enough room behind `tail` for a header: so there is a block
    left
    simp only [blkHeadLen] at hfit
    omega
  | fitTail v =>
    rw [hpc] at hcons
    simp only
    split
    · next hfit => exact h.read (hcons hfit)
    · exact h.read trivial
  | flatTail =>
    rw [hpc] at hcons
    exact h.read ⟨rfl, hcons⟩
  | wrapHead => exact h.read (fun hlt => hlt)
  | wrapTail v =>
    rw [hpc] at hcons
    simp only
    split
    · next hlt => exact h.read (hcons hlt)
    · exact h.read trivial
  | endTail =>
    rw [hpc] at hcons
    simp only
    split
    · next hshort => exact h.read ⟨hcons, fun hfit => by omega⟩
    · next hfit => exact h.read ⟨hcons, by omega⟩
  | typeTail =>
    rw [hpc] at hcons
    simp only
    split
    · next htype => exact h.read ⟨hcons.1, fun _ => htype⟩
    · next htype => exact h.read ⟨rfl, Or.inr ⟨hcons.1, hcons.2, htype⟩⟩
  | rewind =>
    rw [hpc] at hcons
    refine ⟨⟨bs, hrep.rewind hcons, heq⟩, h.pushable, ?_, trivial⟩
    refine h.producer.stable (ConsumerStep.rewind hrep hcons) ?_
    -- the only place where the condition is used
    exact fun hbetween => absurd hbetween (hno hpc)
  | got p =>
    rw [hpc] at hcons
    exact h.read ⟨rfl, hcons.2⟩
  | popLoad p =>
    rw [hpc] at hcons
    exact h.read ⟨hcons.1, rfl, hcons.2⟩
  | popStore p t =>
    rw [hpc] at hcons
    rcases hcons with ⟨rfl, rfl, hat⟩
    rcases hrep.step_over hat with ⟨b, rest, rfl, hb, hp, hrest⟩
    have hlen : (MemBlock.decode (s.q.mem.ptr s.q.tail)).len = b.head.len := by rw [← hb, blkAt]
    -- the oldest block is stepped over by its own length
    have hstep := ConsumerStep.pop hrep hb hp hat
    have hpos := hp.1
    simp only [blkHeadLen] at hpos
    constructor
    · simp only [hlen, hb]
      refine ⟨rest, hrest, ?_⟩
      rw [List.append_assoc]
      exact heq
    · exact h.pushable
    · simp only [hlen]
      refine h.producer.stable hstep fun _ hlt => ?_
      simp only
      omega
    · trivial

/-- **One step** of either party keeps the invariant, but for that rewind. -/
theorem raceStep_inv (l : RaceLbl) (s t : RaceSt) (h : RaceInv s) (hno : NoRewindBetween l s)
    (hstep : raceStep l s = some t) : RaceInv t := by
  cases l with
  | call b data =>
    simp only [raceStep, Option.ite_none_right_eq_some] at hstep
    rcases hstep with ⟨⟨hidle, hb⟩, ht⟩
    cases ht
    rcases h.conserved with ⟨bs, hrep, heq⟩
    refine ⟨⟨bs, hrep, ?_⟩, fun _ => hb, trivial, h.consumer⟩
    simpa [RaceSt.inflight, hidle] using heq
  | producer => exact pushStep_inv h hstep
  | consumer =>
    cases hstep
    exact getStep_inv h hno

/-- **No block is lost, repeated or reordered** in a run whose rewinds of `tail`
all happen outside the two comparisons of `mq_push`, however the two parties'
steps are interleaved. -/
theorem race_conserves {size : Int} (hsize : memHeadLen < size) {ls : List RaceLbl} {s : RaceSt}
    (hno : Along raceStep NoRewindBetween ls (raceInit size))
    (hrun : exec raceStep ls (raceInit size) = some s) : Conserved s :=
  (exec_invariant _ raceStep_inv (raceInv_init hsize) hno hrun).conserved

/-- A block of `n` bytes for `fd` 7. -/
def raceBlk (n : Int32) : MemBlock := ⟨0, 7, MemBlockType.blkData.code, n⟩

/-- A push that fills a fresh ring of 64 bytes up to offset 42, a consumer that
empties the ring again, and a push that marks the rest of the ring, jumps back
and finds no room. -/
def refusedPush : List RaceLbl :=
  .call (raceBlk 30) (fun _ => 0) :: List.replicate 7 .producer ++ List.replicate 9 .consumer ++
    .call (raceBlk 30) (fun _ => 0) :: List.replicate 15 .producer

/-- The second push is refused, and nothing is lost or repeated. -/
theorem race_conserves_refusedPush :
    ∃ s, exec raceStep refusedPush (raceInit 64) = some s ∧ Conserved s := by
  have hsome : (exec raceStep refusedPush (raceInit 64)).isSome := by decide +kernel
  rcases Option.isSome_iff_exists.mp hsome with ⟨s, hrun⟩
  have hno : Along raceStep NoRewindBetween refusedPush (raceInit 64) := by decide +kernel
  exact ⟨s, hrun, race_conserves (by decide) hno hrun⟩

/-! ## The condition is needed -/

/-- Wherever the excluded step is taken, the pending `mq_push` goes on to return
`0` without having appended its block. -/
theorem rewind_between_loses {s : RaceSt} (h : RaceInv s) (hget : s.get = .rewind)
    (hpush : BetweenTests s.push) : ∃ ls t, exec raceStep ls s = some t ∧ ¬ Conserved t := by
  rcases h.conserved with ⟨bs, hrep, heq⟩
  have hcons := h.consumer
  rw [hget] at hcons
  have hrew := hrep.rewind hcons
  have hhead : ¬ s.q.head < memHeadLen := by
    have hb := hrep.bounds
    omega
  have hquiet : s.inflight = [] := by
    apply inflight_eq_nil
    cases hpc : s.push with
    | test2Head | test2Tail v => trivial
    | _ =>
      rw [hpc] at hpush
      exact hpush.elim
  rw [hquiet, List.append_nil] at heq
  -- the state in which that call has returned
  have hlost : ¬ Conserved { s with
      q := { s.q with tail := memHeadLen }
      get := .fullHead
      push := .idle
      pushed := s.pushed ++ [s.b.withData s.data] } := by
    rintro ⟨bs', hrep', heq'⟩
    cases hrep'.unique hrew
    simp [RaceSt.inflight, heq] at heq'
  cases hpc : s.push with
  | test2Head =>
    refine ⟨[.consumer, .producer, .producer, .producer], _, ?_, hlost⟩
    simp [raceStep, getStep, pushStep, hget, hpc, hhead]
  | test2Tail v =>
    have hprod := h.producer
    rw [hpc] at hprod
    rcases hprod with ⟨rfl, _⟩
    refine ⟨[.consumer, .producer, .producer], _, ?_, hlost⟩
    simp [raceStep, getStep, pushStep, hget, hpc, hhead]
  | _ =>
    rw [hpc] at hpush
    exact hpush.elim

/-- The next push of the run above, overtaken between its comparisons by an
`mq_get` that finds the mark and rewinds. -/
def lostPush : List RaceLbl :=
  refusedPush ++ .call (raceBlk 30) (fun _ => 0) :: List.replicate 2 .producer ++
    List.replicate 8 .consumer ++ List.replicate 3 .producer

/-- That push has returned `0`, and its block is nowhere. -/
theorem lostPush_not_conserved :
    ∃ s, exec raceStep lostPush (raceInit 64) = some s ∧ s.push = .idle ∧ ¬ Conserved s := by
  have hsome : (exec raceStep lostPush (raceInit 64)).isSome := by decide +kernel
  have hfacts : ∀ s ∈ exec raceStep lostPush (raceInit 64), s.push = .idle ∧
      s.q.head = s.q.tail ∧ s.pushed.length = 2 ∧ s.popped.length = 1 ∧ s.inflight.length = 0 := by
    decide +kernel
  rcases Option.isSome_iff_exists.mp hsome with ⟨s, hrun⟩
  rcases hfacts s hrun with ⟨hidle, hempty, hpushed, hpopped, hquiet⟩
  refine ⟨s, hrun, hidle, ?_⟩
  rintro ⟨bs, hrep, heq⟩
  cases hrep.eq_nil hempty
  have hlen := congrArg List.length heq
  simp [hpushed, hpopped, hquiet] at hlen

end SServer.Queue
