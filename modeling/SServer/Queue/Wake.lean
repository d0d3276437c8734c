import SServer.Lib.Edge
import SServer.Queue.RaceSafe

/-!
# SServer.Queue.Wake — the pipe beside a ring

`mq_push` writes a byte into the pipe of its queue once `head` has moved over the
block; the consumer's loop waits for that pipe in `epoll_wait`, reads it, and goes
on popping until `mq_get` finds no block. The model puts the pipe and the loop
beside the interleaving of `SServer.Queue.Race`, step by step: the write is the
step in which a push that has published its block returns, every read of the pipe
is a step, and so is every access of an index in `mq_get`.

Both processes have this loop. A worker reads its pipe in `do_proc_pipe`, the
master the one of each `sq` in `handle_pipe`; they differ in the reader. What else
a process does between two waits touches neither the ring nor the pipe.

* `WakeInv`: the invariant: a consumer that is asleep has an event to come, or a byte on its
  way, or an empty ring.
* `pushStep_cases`: a step of `mq_push` as the loop sees it.
* `wakeStep_inv`: every step keeps the invariant, but for a rewind between the two comparisons
  of `mq_push`.
* `sleeps_on_empty`: so no wake-up is lost but to a refused push, for either reader of the pipe.
* `jumpedWake_sleeps`: the exception: `head` jumps between two reads of the last `mq_get`, and a
  block waits for the next push.

The timeout of `epoll_wait` is a step that need not come, so no bound in time is claimed. The
pipe is of any capacity and only its level counts: nobody looks at the bytes.
-/

namespace SServer.Queue

open SServer.Lib

/-! ## The loop around a ring -/

/-- How a pipe is read when its event comes: `size` bytes at a time, once or until a
read falls short. -/
structure PipeReader where
  size : Nat
  untilShort : Bool

/-- `do_proc_pipe`, with `PIPE_MSG_LEN` bytes a read. -/
def doProcPipe : PipeReader := { size := 1024, untilShort := true }

/-- `handle_pipe`. -/
def handlePipe (maxMsgLen : Nat) : PipeReader := { size := maxMsgLen, untilShort := false }

/-- Where the consumer's loop stands: in `epoll_wait`, in the handler of the pipe, or
in the `while` around `mq_get`. -/
inductive LoopPc where
  | waiting
  | reading
  | draining
deriving DecidableEq

/-- The ring with its two parties, the pipe and the consumer's loop. Two marks go
with it, both cleared when the consumer leaves `epoll_wait`: `refused` says that a
push has returned `-1`, `jumped` that a push has moved `head` back to the beginning
while `mq_get` stood between two of its reads of `head`. -/
structure WakeSt where
  race : RaceSt
  pipe : Edge
  loop : LoopPc
  refused : Bool
  jumped : Bool

/-- A fresh queue with an empty pipe. -/
def wakeInit (size : Int) (loop : LoopPc) : WakeSt :=
  { race := raceInit size
    pipe := { level := 0, event := false }
    loop := loop
    refused := false
    jumped := false }

/-- A step of the producer, or one of the consumer: of `mq_get` and `mq_pop`, the
return from `epoll_wait` with the event of the pipe or without it, a `read`. -/
inductive WakeLbl where
  | call (b : MemBlock) (data : Mem)
  | producer
  | consumer
  | wake
  | timeout
  | read

/-- The call of `mq_push` that returns next has published its block. -/
def Rings : PushPc → Prop
  | .ret _ true => True
  | _ => False

/-- The call of `mq_push` that returns next has not. -/
def Refuses : PushPc → Prop
  | .ret _ false => True
  | _ => False

/-- `mq_get` has read `head` and not concluded anything from it. -/
def Comparing : GetPc → Prop
  | .fullTail _ | .fitHead | .fitTail _ => True
  | _ => False

instance : ∀ pc, Decidable (Rings pc)
  | .ret _ true => isTrue trivial
  | .ret _ false | .idle | .test1Head | .test1Tail _ | .endHead | .alignHead | .alignType
  | .alignLen _ | .startTail | .wrapStore | .test2Head | .test2Tail _ | .roomHead | .roomTail _
  | .copy | .bumpLoad | .bumpStore _ => isFalse id

instance : ∀ pc, Decidable (Refuses pc)
  | .ret _ false => isTrue trivial
  | .ret _ true | .idle | .test1Head | .test1Tail _ | .endHead | .alignHead | .alignType
  | .alignLen _ | .startTail | .wrapStore | .test2Head | .test2Tail _ | .roomHead | .roomTail _
  | .copy | .bumpLoad | .bumpStore _ => isFalse id

instance : ∀ pc, Decidable (Comparing pc)
  | .fullTail _ | .fitHead | .fitTail _ => isTrue trivial
  | .idle | .fullHead | .flatTail | .wrapHead | .wrapTail _ | .endTail | .typeTail | .rewind
  | .got _ | .popLoad _ | .popStore _ _ => isFalse id

/-- The step of `mq_get` that comes next returns `NULL`. -/
def FoundNone (s : RaceSt) : Prop :=
  match s.get with
  | .fitTail h => ¬ s.q.tail + blkHeadLen ≤ h
  | .wrapTail h => ¬ h < s.q.tail
  | _ => False

instance (s : RaceSt) : Decidable (FoundNone s) := by
  unfold FoundNone
  split <;> infer_instance

/-- Behind a step of `mq_push` that leaves the ring and the two parties at `r`. Without
room in the pipe the `write` fails with `EAGAIN`. -/
def WakeSt.stepped (cap : Nat) (s : WakeSt) (r : RaceSt) : WakeSt :=
  { s with
    race := r
    pipe := if Rings s.race.push then s.pipe.add cap else s.pipe
    refused := s.refused || decide (Refuses s.race.push)
    jumped := s.jumped || decide (s.race.push = .wrapStore ∧ Comparing s.race.get) }

/-- One step of either party, for a pipe of `cap` bytes. -/
def wakeStep (cap : Nat) (rd : PipeReader) : WakeLbl → WakeSt → Option WakeSt
  | .call b data, s => (raceStep (.call b data) s.race).map fun r => { s with race := r }
  | .producer, s => (raceStep .producer s.race).map (s.stepped cap)
  | .consumer, s =>
    if s.loop = .draining then
      (raceStep .consumer s.race).map fun r =>
        { s with race := r, loop := if FoundNone s.race then .waiting else .draining }
    else none
  | .wake, s =>
    if s.loop = .waiting ∧ s.pipe.Armed then
      some { s with pipe := s.pipe.deliver, loop := .reading, refused := false, jumped := false }
    else none
  | .timeout, s =>
    if s.loop = .waiting then
      some { s with loop := .draining, refused := false, jumped := false }
    else none
  | .read, s =>
    if s.loop = .reading then
      let n := min s.pipe.level rd.size
      some { s with
        pipe := s.pipe.take rd.size
        loop := if rd.untilShort = true ∧ n = rd.size then .reading else .draining }
    else none

/-- The condition under which the ring itself is safe, on a step of the loop. -/
def NoRewindHere : WakeLbl → WakeSt → Prop
  | .consumer, s => NoRewindBetween .consumer s.race
  | _, _ => True

instance : ∀ l s, Decidable (NoRewindHere l s)
  | .consumer, s => inferInstanceAs (Decidable (NoRewindBetween .consumer s.race))
  | .call _ _, _ | .producer, _ | .wake, _ | .timeout, _ | .read, _ => isTrue trivial

/-! ## What the producer does to the ring -/

/-- **A step of `mq_push`**, as the consumer's loop sees it: the block is published,
`head` jumps back to the beginning, the call returns, or neither index moves. -/
theorem pushStep_cases {s t : RaceSt} (h : RaceInv s) (hstep : pushStep s = some t) :
    t.get = s.get ∧ t.popped = s.popped ∧ t.q.tail = s.q.tail ∧
      ((Unpublished s.push ∧ t.push = .ret 0 true) ∨
        (s.push = .wrapStore ∧ t.push = .test1Head ∧ s.q.tail ≤ s.q.head ∧
          t.pushed = s.pushed) ∨
        ((∃ r p, s.push = .ret r p) ∧ t.push = .idle ∧ t.q = s.q) ∨
        (Unpublished s.push ∧ s.push ≠ .wrapStore ∧ ¬ Refuses s.push ∧ Unpublished t.push ∧
          t.q.head = s.q.head ∧ t.pushed = s.pushed)) := by
  have hprod := h.producer
  unfold pushStep at hstep
  cases hpc : s.push with
  | idle =>
    rw [hpc] at hstep
    cases hstep
  -- `head` goes back to the beginning; `tail` was not above it
  | wrapStore =>
    rw [hpc] at hstep hprod
    cases hstep
    exact ⟨rfl, rfl, rfl, Or.inr (Or.inl ⟨rfl, rfl, hprod.1, rfl⟩)⟩
  -- the store that publishes the block
  | bumpStore v =>
    rw [hpc] at hstep
    cases hstep
    exact ⟨rfl, rfl, rfl, Or.inl ⟨trivial, rfl⟩⟩
  | ret r p =>
    rw [hpc] at hstep
    cases hstep
    exact ⟨rfl, rfl, rfl, Or.inr (Or.inr (Or.inl ⟨⟨r, p, rfl⟩, rfl, rfl⟩))⟩
  | test1Head | alignType | alignLen _ | test2Head | roomHead | copy | bumpLoad =>
    rw [hpc] at hstep
    cases hstep
    exact ⟨rfl, rfl, rfl, Or.inr (Or.inr (Or.inr ⟨trivial, by simp, id, trivial, rfl, rfl⟩))⟩
  | test1Tail _ | endHead | alignHead | startTail | test2Tail _ | roomTail _ =>
    rw [hpc] at hstep
    cases hstep
    refine ⟨rfl, rfl, rfl, Or.inr (Or.inr (Or.inr ⟨trivial, by simp, id, ?_, rfl, rfl⟩))⟩
    simp only
    split <;> trivial

/-! ## Emptiness -/

/-- Every block that has been published is popped. -/
def RaceSt.Empty (s : RaceSt) : Prop := s.popped = s.pushed ++ s.inflight

/-- A ring that holds nothing has nothing in flight and nothing left to pop. -/
theorem RaceInv.empty_of_rep {s : RaceSt} (h : RaceInv s) (hrep : Rep s.q []) : s.Empty := by
  rcases h.conserved with ⟨bs, hbs, heq⟩
  cases hbs.unique hrep
  rw [List.append_nil] at heq
  exact heq

/-- And the other way around. -/
theorem RaceInv.rep_of_empty {s : RaceSt} (h : RaceInv s) (he : s.Empty) : Rep s.q [] := by
  rcases h.conserved with ⟨bs, hrep, heq⟩
  rw [← he] at heq
  have hnil : bs = [] := by simpa using heq
  rw [← hnil]
  exact hrep

/-! ## The invariant -/

/-- What `mq_get` has seen so far does not make it return `NULL` on a ring with a block
in it. -/
def SeenInv (s : RaceSt) : Prop :=
  match s.get with
  | .fullTail h => h = s.q.head
  | .fitHead => s.q.tail < s.q.head
  | .fitTail h => s.q.tail + blkHeadLen ≤ h
  | .wrapHead => s.Empty ∨ s.q.head < s.q.tail
  | .wrapTail h => s.Empty ∨ h < s.q.tail
  | _ => True

/-- The consumer is to be woken, or its `mq_get` has read a `head` that has jumped. -/
def Alert (s : WakeSt) : Prop :=
  s.pipe.Armed ∨ Rings s.race.push ∨ s.jumped = true

/-- The invariant of the ring, the pipe and the loop. -/
structure WakeInv (cap : Nat) (s : WakeSt) : Prop where
  race : RaceInv s.race
  level : s.pipe.level ≤ cap
  full : s.loop = .reading ∨ s.pipe.Backed cap
  idle : s.loop ≠ .draining → s.race.get = .idle
  seen : s.loop = .draining → Alert s ∨ SeenInv s.race
  asleep : s.loop = .waiting → Alert s ∨ s.race.Empty
  jump : s.jumped = true → s.loop ≠ .reading ∧
    (s.pipe.Armed ∨ s.race.push ≠ .idle ∨ s.refused = true)

/-- A fresh queue with an empty pipe, and a loop at its beginning. -/
theorem wakeInv_init {size : Int} (hsize : memHeadLen < size) {cap : Nat} (hcap : 0 < cap)
    (loop : LoopPc) : WakeInv cap (wakeInit size loop) where
  race := raceInv_init hsize
  level := Nat.zero_le cap
  full := Or.inr ⟨Nat.zero_le cap, fun heq => absurd heq (by simp only [wakeInit]; omega)⟩
  idle := fun _ => rfl
  seen := fun _ => Or.inr trivial
  asleep := fun _ => Or.inr rfl
  jump := fun h => absurd h (by simp [wakeInit])

/-- What is seen of a ring stays seen while `head` stands still and nothing is published. -/
theorem SeenInv.still {s t : RaceSt} (h : SeenInv s) (hget : t.get = s.get)
    (htail : t.q.tail = s.q.tail) (hhead : t.q.head = s.q.head) (he : s.Empty → t.Empty) :
    SeenInv t := by
  unfold SeenInv at h ⊢
  rw [hget, htail, hhead]
  cases hpc : s.get with
  | wrapHead | wrapTail _ =>
    rw [hpc] at h
    rcases h with hempty | hlt
    · exact Or.inl (he hempty)
    · exact Or.inr hlt
  | _ =>
    rw [hpc] at h
    exact h

/-- It also stays seen when `head` jumps, unless `mq_get` is about to use what it read. -/
theorem SeenInv.jump {s t : RaceSt} (h : SeenInv s) (hget : t.get = s.get)
    (htail : t.q.tail = s.q.tail) (hle : s.q.tail ≤ s.q.head) (hno : ¬ Comparing s.get)
    (he : s.Empty → t.Empty) : SeenInv t := by
  unfold SeenInv at h ⊢
  rw [hget, htail]
  cases hpc : s.get with
  | fullTail _ | fitHead | fitTail _ =>
    rw [hpc] at hno
    exact absurd trivial hno
  | wrapHead =>
    rw [hpc] at h
    rcases h with hempty | hlt
    · exact Or.inl (he hempty)
    · omega
  | wrapTail _ =>
    rw [hpc] at h
    rcases h with hempty | hlt
    · exact Or.inl (he hempty)
    · exact Or.inr hlt
  | _ => trivial

/-! ## The steps keep it -/

/-- A push that has published nothing does not write to the pipe next. -/
theorem Unpublished.not_rings {pc : PushPc} (h : Unpublished pc) : ¬ Rings pc := by
  intro hr
  cases pc with
  | ret r p =>
    cases p with
    | true => exact h
    | false => exact hr
  | _ => exact hr

/-- Who has a block to publish is inside a call. -/
theorem Unpublished.ne_idle {pc : PushPc} (h : Unpublished pc) : pc ≠ .idle := by
  rintro rfl
  exact h

/-- So is who compares the indices. -/
theorem Comparing.ne_idle {pc : GetPc} (h : Comparing pc) : pc ≠ .idle := by
  rintro rfl
  exact h

/-- A loop in the middle of `mq_get` is draining. -/
theorem WakeInv.draining {cap : Nat} {s : WakeSt} (h : WakeInv cap s) (hc : Comparing s.race.get) :
    s.loop = .draining := by
  by_contra hne
  exact hc.ne_idle (h.idle hne)

/-- A mark of a jump is the old one, or new and then the loop is draining. -/
theorem WakeInv.not_reading {cap : Nat} {s : WakeSt} (h : WakeInv cap s) {r : RaceSt}
    (hj : (s.stepped cap r).jumped = true) : s.loop ≠ .reading := by
  simp only [WakeSt.stepped, Bool.or_eq_true, decide_eq_true_eq] at hj
  rcases hj with hold | ⟨_, hc⟩
  · exact (h.jump hold).1
  · rw [h.draining hc]
    decide

/-- A step that is not the write leaves the pipe alone. -/
theorem stepped_pipe {cap : Nat} {s : WakeSt} (hnot : ¬ Rings s.race.push) (r : RaceSt) :
    (s.stepped cap r).pipe = s.pipe := if_neg hnot

/-- What is to wake the consumer goes on to be. -/
theorem Alert.stepped {cap : Nat} {s : WakeSt} (h : Alert s) (hnot : ¬ Rings s.race.push)
    (r : RaceSt) : Alert (s.stepped cap r) := by
  rcases h with harm | hring | hjump
  · left
    rw [stepped_pipe hnot]
    exact harm
  · exact absurd hring hnot
  · exact Or.inr (Or.inr (by simp [WakeSt.stepped, hjump]))

/-- Outside the publication a step of `mq_push` keeps an empty ring empty. -/
theorem RaceSt.Empty.stepped {s r : RaceSt} (h : s.Empty) (hs : s.inflight = [])
    (hr : r.inflight = []) (hpop : r.popped = s.popped) (hpush : r.pushed = s.pushed) :
    r.Empty := by
  unfold RaceSt.Empty at h ⊢
  rw [hs] at h
  rw [hr, hpop, hpush]
  exact h

/-- A step of `mq_push` that does not write and keeps what has been seen. -/
theorem WakeInv.quiet {cap : Nat} {s : WakeSt} (h : WakeInv cap s) {r : RaceSt}
    (hrace : RaceInv r) (hget : r.get = s.race.get) (hnot : ¬ Rings s.race.push)
    (hempty : s.race.Empty → r.Empty)
    (hseen : SeenInv s.race → (s.stepped cap r).jumped = true ∨ SeenInv r)
    (hcall : r.push ≠ .idle ∨ Refuses s.race.push) : WakeInv cap (s.stepped cap r) where
  race := hrace
  level := by
    rw [stepped_pipe hnot]
    exact h.level
  full := by
    rw [stepped_pipe hnot]
    exact h.full
  idle := fun hne => hget.trans (h.idle hne)
  seen := by
    intro hd
    rcases h.seen hd with halert | hs
    · exact Or.inl (halert.stepped hnot r)
    · exact (hseen hs).imp_left fun hj => Or.inr (Or.inr hj)
  asleep := fun hw => (h.asleep hw).imp (fun halert => halert.stepped hnot r) hempty
  jump := by
    intro hj
    refine ⟨h.not_reading hj, Or.inr ?_⟩
    exact hcall.imp_right fun hr => by simp [WakeSt.stepped, hr]

/-- A call of `mq_push` that returns `-1` has pushed nothing. -/
theorem refused_pushed {s r : RaceSt} (h : RaceInv s) (hstep : pushStep s = some r) {v : Int}
    (hpc : s.push = .ret v false) : r.pushed = s.pushed := by
  have hprod := h.producer
  rw [hpc] at hprod
  have hv : v ≠ 0 := fun hv => by simpa using hprod.mp hv
  unfold pushStep at hstep
  rw [hpc] at hstep
  cases hstep
  exact if_neg hv

/-- **A step of `mq_push`**, with its write to the pipe, keeps the invariant. -/
theorem WakeInv.producer {cap : Nat} (hcap : 0 < cap) {rd : PipeReader} {s t : WakeSt}
    (h : WakeInv cap s) (hstep : wakeStep cap rd .producer s = some t) : WakeInv cap t := by
  simp only [wakeStep, raceStep, Option.map_eq_some_iff] at hstep
  rcases hstep with ⟨r, hr, rfl⟩
  have hrace := pushStep_inv h.race hr
  rcases pushStep_cases h.race hr with ⟨hget, hpop, htail, hcase⟩
  rcases hcase with ⟨hun, hpc⟩ | ⟨hpc, hpc', hle, hpush⟩ | ⟨⟨v, p, hpc⟩, hpc', hq⟩ |
    ⟨hun, _, _, hun', hhead, hpush⟩
  · -- the block is published, and the write comes next
    have halert : Alert (s.stepped cap r) := Or.inr (Or.inl (by
      rw [WakeSt.stepped, hpc]
      trivial))
    constructor
    · exact hrace
    · rw [stepped_pipe hun.not_rings]
      exact h.level
    · rw [stepped_pipe hun.not_rings]
      exact h.full
    · exact fun hne => hget.trans (h.idle hne)
    · exact fun _ => Or.inl halert
    · exact fun _ => Or.inl halert
    · exact fun hj => ⟨h.not_reading hj, Or.inr (Or.inl (by rw [WakeSt.stepped, hpc]; simp))⟩
  · -- `head` jumps back; under the eyes of `mq_get` this is the jump that is marked
    have hempty : s.race.Empty → r.Empty := fun he =>
      he.stepped (inflight_eq_nil (by rw [hpc]; trivial)) (inflight_eq_nil (by rw [hpc']; trivial))
        hpop hpush
    refine h.quiet hrace hget (by rw [hpc]; exact id) hempty (fun hs => ?_)
      (Or.inl (by rw [hpc']; simp))
    by_cases hc : Comparing s.race.get
    · exact Or.inl (by simp [WakeSt.stepped, hpc, hc])
    · exact Or.inr (hs.jump hget htail hle hc hempty)
  · cases p with
    | true =>
      -- the write arms the pipe, wherever the loop is but for its own reads
      have hpipe : (s.stepped cap r).pipe = s.pipe.add cap := if_pos (by rw [hpc]; trivial)
      have harm : s.loop ≠ .reading → (s.stepped cap r).pipe.Armed := by
        intro hne
        rw [hpipe]
        exact (h.full.resolve_left hne).add_armed hcap
      constructor
      · exact hrace
      · rw [hpipe]
        exact Edge.add_le h.level
      · rw [hpipe]
        exact h.full.imp_right Edge.Backed.add
      · exact fun hne => hget.trans (h.idle hne)
      · exact fun hd => Or.inl (Or.inl (harm fun hr => by cases hd.symm.trans hr))
      · exact fun hw => Or.inl (Or.inl (harm fun hr => by cases hw.symm.trans hr))
      · exact fun hj => ⟨h.not_reading hj, Or.inl (harm (h.not_reading hj))⟩
    | false =>
      -- the call has been refused
      have hnil : r.inflight = [] := by rw [RaceSt.inflight, hpc']
      have hempty : s.race.Empty → r.Empty := fun he =>
        he.stepped (inflight_eq_nil (by rw [hpc]; trivial)) hnil hpop
          (refused_pushed h.race hr hpc)
      refine h.quiet hrace hget (by rw [hpc]; exact id) hempty (fun hs => Or.inr ?_)
        (Or.inr (by rw [hpc]; trivial))
      exact hs.still hget htail (by rw [hq]) hempty
  · -- neither index moves
    have hempty : s.race.Empty → r.Empty := fun he =>
      he.stepped (inflight_eq_nil hun) (inflight_eq_nil hun') hpop hpush
    exact h.quiet hrace hget hun.not_rings hempty
      (fun hs => Or.inr (hs.still hget htail hhead hempty)) (Or.inl hun'.ne_idle)

/-- What `mq_get` goes on to see of a ring nothing has jumped on, and what it means that
it returns `NULL`. -/
theorem SeenInv.getStep {s : RaceSt} (h : SeenInv s) (hinv : RaceInv s) :
    (FoundNone s → s.Empty) ∧ SeenInv (getStep s) := by
  rcases hinv.conserved with ⟨bs, hrep, _⟩
  unfold SeenInv FoundNone at *
  unfold Queue.getStep
  cases hpc : s.get with
  | fullHead => exact ⟨False.elim, rfl⟩
  | fullTail v =>
    rw [hpc] at h
    have hv : v = s.q.head := h
    refine ⟨False.elim, ?_⟩
    by_cases hlt : s.q.tail < v
    · simp only [if_pos hlt]
      omega
    · simp only [if_neg hlt]
      -- `head` at `tail` is an empty ring, `head` below it is looked at again
      by_cases heq : s.q.head = s.q.tail
      · left
        cases hrep.eq_nil heq
        exact hinv.empty_of_rep hrep
      · right
        omega
  | fitHead =>
    rw [hpc] at h
    exact ⟨False.elim, hrep.head_fits h⟩
  | fitTail v =>
    rw [hpc] at h
    have hfit : s.q.tail + blkHeadLen ≤ v := h
    refine ⟨fun hno => absurd hfit hno, ?_⟩
    simp only [if_pos hfit]
  | wrapHead =>
    rw [hpc] at h
    exact ⟨False.elim, h⟩
  | wrapTail v =>
    rw [hpc] at h
    refine ⟨fun hno => h.resolve_right hno, ?_⟩
    by_cases hlt : v < s.q.tail
    · simp only [if_pos hlt]
    · simp only [if_neg hlt]
  | endTail =>
    refine ⟨False.elim, ?_⟩
    by_cases hshort : s.q.len < s.q.tail + blkHeadLen
    · simp only [if_pos hshort]
    · simp only [if_neg hshort]
  | typeTail =>
    refine ⟨False.elim, ?_⟩
    by_cases htype : (MemBlock.decode (s.q.mem.ptr s.q.blkTail)).type
        = MemBlockType.blkAlign.code
    · simp only [if_pos htype]
    · simp only [if_neg htype]
  | _ => exact ⟨False.elim, trivial⟩

/-- A step of `mq_get` and `mq_pop` returns `NULL` into an idle consumer. -/
theorem FoundNone.idle {s : RaceSt} (h : FoundNone s) : (getStep s).get = .idle := by
  unfold FoundNone at h
  unfold getStep
  cases hpc : s.get with
  | fitTail v =>
    rw [hpc] at h
    exact if_neg h
  | wrapTail v =>
    rw [hpc] at h
    exact if_neg h
  | _ => simp [hpc] at h

/-- That step changes nothing else. -/
theorem FoundNone.empty {s : RaceSt} (h : FoundNone s) (he : s.Empty) : (getStep s).Empty := by
  unfold FoundNone at h
  unfold getStep
  cases hpc : s.get with
  | fitTail _ | wrapTail _ => exact he
  | _ => simp [hpc] at h

/-- A step of the consumer leaves the producer where it is. -/
theorem getStep_push (s : RaceSt) : (getStep s).push = s.push := by
  unfold getStep
  cases s.get with
  | typeTail =>
    simp only
    split <;> rfl
  | _ => rfl

/-- **A step of the consumer** inside its `while` keeps the invariant. -/
theorem WakeInv.consumer {cap : Nat} {rd : PipeReader} {s t : WakeSt} (h : WakeInv cap s)
    (hno : NoRewindBetween .consumer s.race) (hstep : wakeStep cap rd .consumer s = some t) :
    WakeInv cap t := by
  simp only [wakeStep, raceStep, Option.map_some, Option.ite_none_right_eq_some] at hstep
  rcases hstep with ⟨hd, ht⟩
  cases ht
  -- what keeps the consumer awake is not its own to take away
  have halert : ∀ loop, Alert s → Alert { s with race := getStep s.race, loop := loop } := by
    rintro loop (harm | hring | hjump)
    · exact Or.inl harm
    · exact Or.inr (Or.inl (by rw [← getStep_push] at hring; exact hring))
    · exact Or.inr (Or.inr hjump)
  -- it goes to sleep only when `mq_get` has found nothing
  have hloop : (if FoundNone s.race then LoopPc.waiting else .draining) ≠ .reading := by
    split <;> decide
  constructor
  · exact getStep_inv h.race hno
  · exact h.level
  · exact Or.inr (h.full.resolve_left (by rw [hd]; decide))
  · intro hne
    by_cases hnone : FoundNone s.race
    · exact hnone.idle
    · exact absurd (if_neg hnone) hne
  · exact fun _ => (h.seen hd).imp (halert _) fun hs => (hs.getStep h.race).2
  · intro hw
    by_cases hnone : FoundNone s.race
    · exact (h.seen hd).imp (halert _) fun hs => hnone.empty ((hs.getStep h.race).1 hnone)
    · simp only [if_neg hnone] at hw
      cases hw
  · refine fun hj => ⟨hloop, ?_⟩
    have hjump := (h.jump hj).2
    rw [← getStep_push] at hjump
    exact hjump

/-- **Every step keeps the invariant**, but for a rewind between the two comparisons of
`mq_push`. -/
theorem wakeStep_inv {cap : Nat} (hcap : 0 < cap) {rd : PipeReader} (hrd : 0 < rd.size)
    (l : WakeLbl) (s t : WakeSt) (h : WakeInv cap s) (hno : NoRewindHere l s)
    (hstep : wakeStep cap rd l s = some t) : WakeInv cap t := by
  cases l with
  | producer => exact h.producer hcap hstep
  | consumer => exact h.consumer hno hstep
  | call b data =>
    simp only [wakeStep, Option.map_eq_some_iff] at hstep
    rcases hstep with ⟨r, hr, rfl⟩
    have hrace := raceStep_inv (.call b data) s.race r h.race trivial hr
    simp only [raceStep, Option.ite_none_right_eq_some] at hr
    rcases hr with ⟨⟨hidle, _⟩, hr⟩
    cases hr
    -- the call itself stores nothing in the ring
    have hempty : s.race.Empty →
        RaceSt.Empty { s.race with push := .test1Head, b := b, data := data } := fun he =>
      he.stepped (by rw [RaceSt.inflight, hidle]) rfl rfl rfl
    have halert : Alert s → Alert { s with
        race := { s.race with push := .test1Head, b := b, data := data } } := by
      rintro (harm | hring | hjump)
      · exact Or.inl harm
      · rw [hidle] at hring
        exact hring.elim
      · exact Or.inr (Or.inr hjump)
    constructor
    · exact hrace
    · exact h.level
    · exact h.full
    · exact h.idle
    · exact fun hd => (h.seen hd).imp halert fun hs => hs.still rfl rfl rfl hempty
    · exact fun hw => (h.asleep hw).imp halert hempty
    · exact fun hj => ⟨(h.jump hj).1, Or.inr (Or.inl (by simp))⟩
  | wake =>
    simp only [wakeStep, Option.ite_none_right_eq_some] at hstep
    rcases hstep with ⟨⟨hw, _⟩, ht⟩
    cases ht
    constructor
    · exact h.race
    · exact h.level
    · exact Or.inl rfl
    · exact fun _ => h.idle (by rw [hw]; decide)
    · exact fun hd => by cases hd
    · exact fun hw' => by cases hw'
    · exact fun hj => by cases hj
  | timeout =>
    simp only [wakeStep, Option.ite_none_right_eq_some] at hstep
    rcases hstep with ⟨hw, ht⟩
    cases ht
    -- the `while` starts anew, with all the ring to see
    have hget := h.idle (by rw [hw]; decide)
    constructor
    · exact h.race
    · exact h.level
    · exact Or.inr (h.full.resolve_left (by rw [hw]; decide))
    · exact fun hne => absurd rfl hne
    · exact fun _ => Or.inr (by rw [SeenInv, hget]; trivial)
    · exact fun hw' => by cases hw'
    · exact fun hj => by cases hj
  | read =>
    simp only [wakeStep, Option.ite_none_right_eq_some] at hstep
    rcases hstep with ⟨hr, ht⟩
    cases ht
    have hget := h.idle (by rw [hr]; decide)
    constructor
    · exact h.race
    · exact Nat.le_trans (Nat.sub_le _ _) h.level
    · -- a read of one byte or more leaves room in the pipe
      exact Or.inr (Edge.take_backed h.level hrd hcap)
    · exact fun _ => hget
    · exact fun _ => Or.inr (by rw [SeenInv, hget]; trivial)
    · intro hw
      simp only at hw
      split at hw <;> cases hw
    · exact fun hj => absurd hr (h.jump hj).1

/-! ## When the consumer sleeps -/

/-- **No wake-up is lost but to a refused push**, in every interleaving where the consumer does
not rewind between the two comparisons of one `mq_push`. Whenever the consumer is in
`epoll_wait` with no event to come and no push in progress, its ring is empty; or `head` has
jumped between two of the reads of its last `mq_get`, and a push has returned `-1`. -/
theorem sleeps_on_empty {size : Int} (hsize : memHeadLen < size) {cap : Nat} (hcap : 0 < cap)
    {rd : PipeReader} (hrd : 0 < rd.size) {loop : LoopPc} {ls : List WakeLbl} {s : WakeSt}
    (hno : Along (wakeStep cap rd) NoRewindHere ls (wakeInit size loop))
    (hrun : exec (wakeStep cap rd) ls (wakeInit size loop) = some s) (hwait : s.loop = .waiting)
    (hidle : s.race.push = .idle) (hquiet : ¬ s.pipe.Armed) :
    Rep s.race.q [] ∨ s.jumped = true ∧ s.refused = true := by
  have h := exec_invariant _ (wakeStep_inv hcap hrd) (wakeInv_init hsize hcap loop) hno hrun
  rcases h.asleep hwait with (harm | hring | hjump) | hempty
  · exact absurd harm hquiet
  · rw [hidle] at hring
    exact hring.elim
  · right
    rcases (h.jump hjump).2 with harm | hcall | hrefused
    · exact absurd harm hquiet
    · exact absurd hidle hcall
    · exact ⟨hjump, hrefused⟩
  · exact Or.inl (h.race.rep_of_empty hempty)

/-- Two pushes of 20 bytes each, the consumer woken by the first byte of the pipe. -/
def twoPushes : List WakeLbl :=
  .call (raceBlk 20) (fun _ => 0) :: List.replicate 7 .producer ++
    .call (raceBlk 20) (fun _ => 0) :: List.replicate 7 .producer ++ [.wake, .read]

/-- Both are popped, and the consumer goes back to sleep: a worker with its `do_proc_pipe`,
or the master with its `handle_pipe`. -/
theorem sleeps_on_empty_twoPushes :
    (∃ s, exec (wakeStep 65536 doProcPipe) (twoPushes ++ List.replicate 23 .consumer)
        (wakeInit 100 .waiting) = some s ∧
      (Rep s.race.q [] ∨ s.jumped = true ∧ s.refused = true)) ∧
    ∃ s, exec (wakeStep 65536 (handlePipe 102400)) (twoPushes ++ List.replicate 23 .consumer)
        (wakeInit 100 .waiting) = some s ∧
      (Rep s.race.q [] ∨ s.jumped = true ∧ s.refused = true) := by
  have hsome : ∀ rd ∈ [doProcPipe, handlePipe 102400], (exec (wakeStep 65536 rd)
      (twoPushes ++ List.replicate 23 .consumer) (wakeInit 100 .waiting)).isSome := by
    decide +kernel
  have hno : ∀ rd ∈ [doProcPipe, handlePipe 102400], Along (wakeStep 65536 rd) NoRewindHere
      (twoPushes ++ List.replicate 23 .consumer) (wakeInit 100 .waiting) := by
    decide +kernel
  have hfacts : ∀ rd ∈ [doProcPipe, handlePipe 102400], ∀ s ∈ exec (wakeStep 65536 rd)
      (twoPushes ++ List.replicate 23 .consumer) (wakeInit 100 .waiting),
      s.loop = .waiting ∧ s.race.push = .idle ∧ ¬ s.pipe.Armed := by
    decide +kernel
  have hsize : ∀ rd ∈ [doProcPipe, handlePipe 102400], 0 < rd.size := by decide
  have hsleeps : ∀ rd ∈ [doProcPipe, handlePipe 102400],
      ∃ s, exec (wakeStep 65536 rd) (twoPushes ++ List.replicate 23 .consumer)
          (wakeInit 100 .waiting) = some s ∧
        (Rep s.race.q [] ∨ s.jumped = true ∧ s.refused = true) := by
    intro rd hrd
    rcases Option.isSome_iff_exists.mp (hsome rd hrd) with ⟨s, hrun⟩
    rcases hfacts rd hrd s hrun with ⟨hwait, hidle, hquiet⟩
    exact ⟨s, hrun, sleeps_on_empty (by decide) (by decide) (hsize rd hrd) (hno rd hrd) hrun hwait
      hidle hquiet⟩
  exact ⟨hsleeps _ List.mem_cons_self, hsleeps _ (List.mem_cons_of_mem _ List.mem_cons_self)⟩

/-- The consumer pops the first of the two blocks and looks for the next one; a third
block that fits nowhere makes `head` jump before `mq_get` reads it again. -/
def jumpedWake : List WakeLbl :=
  twoPushes ++ List.replicate 12 .consumer ++
    .call (raceBlk 50) (fun _ => 0) :: List.replicate 8 .producer ++
    List.replicate 2 .consumer ++ List.replicate 7 .producer

/-- The consumer then sleeps on the second block, until the next push or the timeout. -/
theorem jumpedWake_sleeps :
    ∃ s, exec (wakeStep 65536 doProcPipe) jumpedWake (wakeInit 100 .waiting) = some s ∧
      s.loop = .waiting ∧ s.race.push = .idle ∧ ¬ s.pipe.Armed ∧ ¬ Rep s.race.q [] := by
  have hsome : (exec (wakeStep 65536 doProcPipe) jumpedWake (wakeInit 100 .waiting)).isSome := by
    decide +kernel
  have hno : Along (wakeStep 65536 doProcPipe) NoRewindHere jumpedWake (wakeInit 100 .waiting) := by
    decide +kernel
  have hfacts : ∀ s ∈ exec (wakeStep 65536 doProcPipe) jumpedWake (wakeInit 100 .waiting),
      s.loop = .waiting ∧ s.race.push = .idle ∧ ¬ s.pipe.Armed ∧
        s.race.pushed.length = 2 ∧ s.race.popped.length = 1 ∧ s.race.inflight.length = 0 := by
    decide +kernel
  rcases Option.isSome_iff_exists.mp hsome with ⟨s, hrun⟩
  rcases hfacts s hrun with ⟨hwait, hidle, hquiet, hpushed, hpopped, hinflight⟩
  have h := exec_invariant _ (wakeStep_inv (by decide) (by decide))
    (wakeInv_init (by decide) (by decide) .waiting) hno hrun
  refine ⟨s, hrun, hwait, hidle, hquiet, fun hrep => ?_⟩
  -- two blocks have been pushed and one popped
  have hlen := congrArg List.length (h.race.empty_of_rep hrep)
  simp [hpushed, hpopped, hinflight] at hlen

end SServer.Queue
