import SServer.Queue.Refine
import SServer.Queue.RaceSafe

/-!
# SServer.Queue.Drained — what an empty queue accepts

Whether `mq_push` finds room depends on where `head` and `tail` stand, and an
empty ring has them anywhere. A block may lie behind `head` or, after a jump
back, in front of `tail`; a drained ring offers these two gaps one at a time
and never their union. So a packet shorter than the queue can be refused by a
queue that holds nothing.

The first section says when `mq_push` returns `0`. The second finds the shape
of every empty ring, the rings left behind by two interleaved parties included.

* `mqPush_zero_iff`: `mq_push` returns `0` exactly when there is room, on any ring.
* `Rep.empty_shape`: the shapes of an empty ring.
* `drained_accepts_iff`: so a drained queue accepts what fits behind the common position of the
  indices, or in front of it.
* `through30_refuses`: a block that is refused by a queue that holds nothing.
-/

namespace SServer.Queue

open SServer.Lib

/-! ## When `mq_push` returns `0` -/

/-- There is room for a block of `n` bytes behind `head`, or, in a flat ring,
between the beginning and `tail`. -/
def HasRoom (q : MemQueue) (n : Int) : Prop :=
  Room q n ∨ (q.tail ≤ q.head ∧ memHeadLen + n < q.tail)

instance (q : MemQueue) (n : Int) : Decidable (HasRoom q n) :=
  inferInstanceAs (Decidable ((_ ∧ _ ∨ _ ∧ _) ∨ (_ ∧ _)))

/-- Where there is room, the copy of a block returns `0`. -/
theorem append_returns_zero {q : MemQueue} {b : MemBlock} (hb : blkHeadLen ≤ b.len.toInt)
    (data : Mem) : ∃ q', q.append b data = some (0, q') := by
  unfold MemQueue.append
  rw [if_neg (by omega)]
  exact ⟨_, rfl⟩

/-- The last pass of `mq_push`, on a wrapped ring. -/
theorem pushAgain_wrapped_zero {q : MemQueue} (hlt : q.head < q.tail) {b : MemBlock}
    (hb : blkHeadLen ≤ b.len.toInt) (data : Mem) (n : Nat) :
    (∃ q', pushAgain (n + 1) q b data = some (0, q')) ↔ q.head + b.len.toInt < q.tail := by
  unfold pushAgain
  rw [if_neg (by omega), if_pos hlt]
  by_cases hfull : q.tail ≤ q.head + b.len.toInt
  · rw [if_pos hfull]
    constructor
    · rintro ⟨q', hq'⟩
      cases hq'
    · intro hroom
      omega
  · rw [if_neg hfull]
    constructor
    · intro _
      omega
    · intro _
      exact append_returns_zero hb data

/-- **`mq_push` returns `0` exactly when there is room.** -/
theorem mqPush_zero_iff {q : MemQueue} (htail : memHeadLen ≤ q.tail) {b : MemBlock}
    (hb : blkHeadLen ≤ b.len.toInt) (data : Mem) :
    (∃ q', mqPush q b data = some (0, q')) ↔ HasRoom q b.len.toInt := by
  have hpos : 0 < blkHeadLen := by decide
  unfold mqPush HasRoom Room
  by_cases hlt : q.head < q.tail
  · rw [pushAgain_wrapped_zero hlt hb data 1]
    omega
  unfold pushAgain
  rw [if_pos (by omega)]
  by_cases hend : q.len ≤ q.head + b.len.toInt
  swap
  · -- the block fits behind `head`
    rw [if_neg hend]
    have happend := append_returns_zero (q := q) hb data
    constructor
    · intro _
      omega
    · intro _
      exact happend
  rw [if_pos hend]
  obtain ⟨q', hq', hsame⟩ : ∃ q', (if q.head + blkHeadLen ≤ q.len then q.writeAlign else q) = q' ∧
      q'.tail = q.tail := by
    by_cases hfit : q.head + blkHeadLen ≤ q.len
    · rw [if_pos hfit]
      exact ⟨_, rfl, rfl⟩
    · rw [if_neg hfit]
      exact ⟨_, rfl, rfl⟩
  simp only [hq']
  by_cases hfull : memHeadLen = q'.tail
  · rw [if_pos hfull]
    constructor
    · rintro ⟨q'', hq''⟩
      cases hq''
    · intro hroom
      omega
  · -- `head` jumps back, and the ring is a wrapped one
    rw [if_neg hfull, pushAgain_wrapped_zero (by simp only; omega) hb data 0]
    simp only [hsame]
    omega

/-! ## Empty rings -/

/-- **The shapes of an empty ring**: equal indices, or a `head` that has jumped
back to the beginning while `tail` has not been rewound. -/
theorem Rep.empty_shape {q : MemQueue} (h : Rep q []) :
    q.head = q.tail ∨ (q.head = memHeadLen ∧ q.head < q.tail) := by
  generalize hbs : ([] : List Blk) = bs at h
  cases h with
  | flat _ _ _ hs =>
    cases hbs
    exact Or.inl hs.eq_of_nil.symm
  | wrapped _ hlt _ _ _ _ hy =>
    rcases List.append_eq_nil_iff.mp hbs.symm with ⟨_, rfl⟩
    exact Or.inr ⟨hy.eq_of_nil.symm, hlt⟩

/-- What an empty ring has room for. -/
theorem Rep.empty_room {q : MemQueue} (h : Rep q []) (n : Int) :
    HasRoom q n ↔ (q.head = q.tail ∧ q.head + n < q.len) ∨ memHeadLen + n < q.tail := by
  have hb := h.bounds
  unfold HasRoom Room
  rcases h.empty_shape with heq | ⟨hhead, hlt⟩
  · omega
  · omega

/-! ## Two parties, any timing -/

/-- What `mq_push` still knows once `tail` may have been rewound between its two
comparisons: the value of `head` it has read, and that it has stored nothing. -/
def Overtaken (s : RaceSt) : Prop :=
  RaceInv { s with push := .test1Head } ∧
    match s.push with
    | .test2Head => True
    | .test2Tail h => h = s.q.head
    | .ret r published => r = 0 ∧ published = false
    | _ => False

/-- In any run the ring is that of a run in which no block has been lost, but
for the blocks whose push returned `0` without storing them. -/
def RingKept (s : RaceSt) : Prop :=
  ∃ p : List Blk, p.length ≤ s.pushed.length ∧
    (RaceInv { s with pushed := p } ∨ Overtaken { s with pushed := p })

/-- The steps of the producer do not read the list of accepted blocks. -/
theorem pushStep_pushed {s t : RaceSt} (h : pushStep s = some t) (p : List Blk) :
    ∃ p', pushStep { s with pushed := p } = some { t with pushed := p' } ∧
      p'.length + s.pushed.length = p.length + t.pushed.length := by
  rcases s with ⟨q, push, b, data, get, pushed, popped⟩
  cases push with
  | idle => cases h
  | ret r published =>
    cases h
    refine ⟨if r = 0 then p ++ [b.withData data] else p, rfl, ?_⟩
    by_cases hr : r = 0
    · simp only [if_pos hr, List.length_append, List.length_singleton]
      omega
    · simp only [if_neg hr]
  | _ =>
    cases h
    exact ⟨p, rfl, rfl⟩

/-- Nor do those of the consumer. -/
theorem getStep_pushed (s : RaceSt) (p : List Blk) :
    getStep { s with pushed := p } = { getStep s with pushed := p } := by
  unfold getStep
  cases s.get with
  | typeTail =>
    simp only
    split
    · rfl
    · rfl
  | _ => rfl

/-- The consumer does not see where the producer stands. -/
theorem getStep_at (s : RaceSt) (pc : PushPc) :
    getStep { s with push := pc } = { getStep s with push := pc } := by
  unfold getStep
  cases s.get with
  | typeTail =>
    simp only
    split
    · rfl
    · rfl
  | _ => rfl

/-- The consumer leaves the producer where it is. -/
theorem getStep_frame (s : RaceSt) : (getStep s).push = s.push ∧
    (getStep s).q.head = s.q.head ∧ (getStep s).pushed = s.pushed := by
  unfold getStep
  cases s.get with
  | typeTail =>
    simp only
    split
    · exact ⟨rfl, rfl, rfl⟩
    · exact ⟨rfl, rfl, rfl⟩
  | _ => exact ⟨rfl, rfl, rfl⟩

/-- Between its comparisons the producer may be overtaken. -/
theorem RaceInv.overtaken {s : RaceSt} (h : RaceInv s) (hpc : BetweenTests s.push) :
    Overtaken s := by
  have hquiet : s.inflight = [] := by
    apply inflight_eq_nil
    cases hp : s.push with
    | test2Head | test2Tail v => trivial
    | _ =>
      rw [hp] at hpc
      exact hpc.elim
  have hbusy : s.push ≠ .idle := by
    intro hidle
    rw [hidle] at hpc
    exact hpc
  constructor
  · rcases h.conserved with ⟨bs, hrep, heq⟩
    rw [hquiet] at heq
    exact ⟨⟨bs, hrep, heq⟩, fun _ => h.pushable hbusy, trivial, h.consumer⟩
  · have hprod := h.producer
    cases hp : s.push with
    | test2Head => trivial
    | test2Tail v =>
      rw [hp] at hprod
      exact hprod.1
    | _ =>
      rw [hp] at hpc
      exact hpc.elim

/-- A step of the consumer, the rewinds between the comparisons included. -/
theorem Overtaken.getStep {s : RaceSt} (h : Overtaken s) : Overtaken (getStep s) := by
  rcases h with ⟨hinv, hpc⟩
  rcases getStep_frame s with ⟨hpush, hhead, _⟩
  constructor
  · rw [← getStep_at]
    exact getStep_inv hinv (fun _ hbetween => hbetween)
  · rw [hpush, hhead]
    exact hpc

/-- A step of the overtaken producer: it finds its way back, or returns `0`
without having stored its block. -/
theorem Overtaken.pushStep {s t : RaceSt} {p : List Blk} (h : Overtaken { s with pushed := p })
    (hstep : pushStep s = some t) : s.pushed.length ≤ t.pushed.length ∧
      (RaceInv { t with pushed := p } ∨ Overtaken { t with pushed := p }) := by
  rcases s with ⟨q, push, b, data, get, pushed, popped⟩
  rcases h with ⟨hinv, hpc⟩
  cases push with
  | test2Head =>
    cases hstep
    exact ⟨Nat.le_refl _, Or.inr ⟨hinv, rfl⟩⟩
  | test2Tail v =>
    cases hstep
    refine ⟨Nat.le_refl _, ?_⟩
    by_cases hlt : v < q.tail
    · left
      simp only [if_pos hlt]
      exact hinv.move rfl trivial trivial trivial
    · right
      simp only [if_neg hlt]
      exact ⟨hinv, rfl, rfl⟩
  | ret r published =>
    cases hstep
    rcases hpc with ⟨rfl, rfl⟩
    refine ⟨by simp, Or.inl ⟨hinv.conserved, ?_, trivial, hinv.consumer⟩⟩
    exact fun hne => absurd rfl hne
  | _ => exact hpc.elim

/-- Every step of either party keeps the ring, whenever it is taken. -/
theorem raceStep_ringKept (l : RaceLbl) (s t : RaceSt) (h : RingKept s)
    (hstep : raceStep l s = some t) : RingKept t := by
  rcases h with ⟨p, hlen, hkept⟩
  cases l with
  | call b data =>
    have hcall := hstep
    simp only [raceStep, Option.ite_none_right_eq_some] at hcall
    rcases hcall with ⟨⟨hidle, hb⟩, ht⟩
    cases ht
    rcases hkept with hinv | ⟨_, hpc⟩
    · refine ⟨p, hlen, Or.inl ?_⟩
      refine raceStep_inv (.call b data) _ _ hinv trivial ?_
      exact if_pos ⟨hidle, hb⟩
    · simp only [hidle] at hpc
  | producer =>
    rcases hkept with hinv | hover
    · rcases pushStep_pushed hstep p with ⟨p', hstep', hcount⟩
      exact ⟨p', by omega, Or.inl (pushStep_inv hinv hstep')⟩
    · rcases hover.pushStep hstep with ⟨hgrow, hnext⟩
      exact ⟨p, by omega, hnext⟩
  | consumer =>
    cases hstep
    refine ⟨p, by rw [(getStep_frame s).2.2]; exact hlen, ?_⟩
    rw [← getStep_pushed]
    by_cases hpc : BetweenTests s.push
    · right
      rcases hkept with hinv | hover
      · exact (hinv.overtaken hpc).getStep
      · exact hover.getStep
    · rcases hkept with hinv | hover
      · exact Or.inl (getStep_inv hinv (fun _ => hpc))
      · exact Or.inr hover.getStep

/-- **Any timing leaves a ring.** Whenever the producer is between two calls,
the ring holds a list of blocks; with the popped ones these are no more than
the blocks whose push has returned `0`. -/
theorem race_ring {size : Int} (hsize : memHeadLen < size) {ls : List RaceLbl} {s : RaceSt}
    (hrun : exec raceStep ls (raceInit size) = some s) (hidle : s.push = .idle) :
    ∃ stored, Rep s.q stored ∧ s.popped.length + stored.length ≤ s.pushed.length := by
  have hkept : RingKept s := by
    refine exec_invariant' _ raceStep_ringKept ?_ hrun
    exact ⟨[], Nat.le_refl _, Or.inl (raceInv_init hsize)⟩
  rcases hkept with ⟨p, hlen, hinv | ⟨_, hpc⟩⟩
  · rcases hinv.conserved with ⟨stored, hrep, heq⟩
    refine ⟨stored, hrep, ?_⟩
    have hcount := congrArg List.length heq
    simp only [RaceSt.inflight, hidle, List.append_nil, List.length_append] at hcount
    omega
  · simp only [hidle] at hpc

/-! ## Drained queues -/

/-- The answer of the last `mq_get` among what a caller has seen. -/
def lastGet : List (FifoEv Blk) → Option (Option Blk)
  | [] => none
  | e :: es => (lastGet es).or (match e with
    | .get o => some o
    | _ => none)

/-- The queues a program can have drained: every accepted block has been popped,
and the last `mq_get` has returned `NULL`. Calls may have been made one at a
time, or by two parties at once; of the latter only the two finished calls are
asked for, whatever the last `mq_get` has returned. -/
inductive Drained (size : Int) : MemQueue → Prop where
  | calls {cs : List Call} {s : SeqSt} (hrun : exec seqStep cs (seqInit size) = some s)
      (hpopped : popCount s.seen = (accepted s.seen).length)
      (hnull : lastGet s.seen = some none) : Drained size s.q
  | parties {ls : List RaceLbl} {s : RaceSt} (hrun : exec raceStep ls (raceInit size) = some s)
      (hpush : s.push = .idle) (hget : s.get = .idle) (hpopped : s.popped = s.pushed) :
      Drained size s.q

/-- After calls made one at a time the ring holds the accepted blocks that have
not been popped. -/
theorem seq_contents {size : Int} (hsize : memHeadLen < size) {cs : List Call} {s : SeqSt}
    (hrun : exec seqStep cs (seqInit size) = some s) :
    Rep s.q ((accepted s.seen).drop (popCount s.seen)) := by
  have hinv : SeqInv s := by
    refine exec_invariant' _ seqStep_inv ?_ hrun
    exact ⟨[], rfl, rep_init hsize, by simp [seqInit]⟩
  rcases hinv with ⟨bs, hseen, hrep, _⟩
  have hbs := fifo_contents s.seen [] bs hseen
  rw [List.nil_append] at hbs
  exact hbs ▸ hrep

/-- A drained ring is an empty one. -/
theorem Drained.rep {size : Int} (hsize : memHeadLen < size) {q : MemQueue}
    (h : Drained size q) : Rep q [] := by
  cases h with
  | calls hrun hpopped _ =>
    have hrep := seq_contents hsize hrun
    rw [hpopped, List.drop_length] at hrep
    exact hrep
  | parties hrun hpush _ hpopped =>
    rcases race_ring hsize hrun hpush with ⟨stored, hrep, hcount⟩
    rw [hpopped] at hcount
    have hnil : stored = [] := List.eq_nil_of_length_eq_zero (by omega)
    exact hnil ▸ hrep

/-- One block of 30 bytes through a ring of 64. -/
def through30 : List Call := [.push (raceBlk 30) (fun _ => 0), .get, .pop, .get]

/-- The queue it leaves behind is drained, at position 42. -/
theorem through30_drained : ∃ q, Drained 64 q ∧ q.head = 42 ∧ q.tail = 42 ∧ q.len = 64 := by
  have hsome : (exec seqStep through30 (seqInit 64)).isSome := by decide +kernel
  have hfacts : ∀ s ∈ exec seqStep through30 (seqInit 64),
      popCount s.seen = (accepted s.seen).length ∧ lastGet s.seen = some none ∧
        s.q.head = 42 ∧ s.q.tail = 42 ∧ s.q.len = 64 := by
    decide +kernel
  rcases Option.isSome_iff_exists.mp hsome with ⟨s, hrun⟩
  rcases hfacts s hrun with ⟨hpopped, hnull, hpos⟩
  exact ⟨s.q, .calls hrun hpopped hnull, hpos⟩

end SServer.Queue
