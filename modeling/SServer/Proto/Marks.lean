import SServer.Proto.Steps

/-!
# SServer.Proto.Marks — where the marks of the blocks come from

A worker copies marks: from the blocks of `rq` to its sessions, and from these to
the blocks of `sq`. The master takes them from its slots. So a relation between
descriptors and marks that the master respects holds everywhere.

* `Marked`: every descriptor stands beside a mark that satisfies `P`, in both queues and in the
  sessions.
* `WorkStep.marked_of`: a step of a worker makes up no mark, but for what it takes a garbled
  `rq` for.
* `WorkStep.marked`: so it keeps `Marked`, when that satisfies `P` as well.
* `pushRq_marked`, `popSq_marked`, `doFdClose_marked`: the same for what the master does.

Marks are not in the source: they say what a descriptor meant when a block was made. The
relation `P` is a parameter; `SServer.Proto.Reuse`, `SServer.Proto.Life` and
`SServer.Proto.Listen` each have their own.
-/

namespace SServer.Proto

open SServer.Lib SServer.Queue SServer.Worker

/-- Every descriptor and mark that a worker keeps together satisfies `P`. -/
structure Marked (P : Int32 → Option Conn → Prop) (w : Work) : Prop where
  rq : ∀ b ∈ w.rq, P b.fd b.conn
  sq : ∀ b ∈ w.sq, P b.fd b.conn
  fds : ∀ fd x, getFd w.fds fd = some x → P fd x.conn

variable {P : Int32 → Option Conn → Prop}

/-- A weaker relation holds as well. -/
theorem Marked.mono {P' : Int32 → Option Conn → Prop} {w : Work} (h : Marked P w)
    (himp : ∀ fd o, P fd o → P' fd o) : Marked P' w :=
  ⟨fun b hb => himp _ _ (h.rq b hb), fun b hb => himp _ _ (h.sq b hb),
    fun fd x hx => himp _ _ (h.fds fd x hx)⟩

/-- A worker at its beginning has no marks. -/
theorem marked_init : Marked P workInit :=
  ⟨fun _ hb => (List.not_mem_nil hb).elim, fun _ hb => (List.not_mem_nil hb).elim,
    fun _ _ hx => by cases hx⟩

/-- A block that goes to `sq` brings its own mark. -/
theorem Marked.pushSq {w : Work} (h : Marked P w) (blk : Block) (hblk : P blk.fd blk.conn)
    (pushed : Bool) : Marked P (w.pushSq blk pushed) := by
  cases pushed with
  | false => exact h
  | true =>
    refine ⟨h.rq, fun b hb => ?_, h.fds⟩
    rcases List.mem_append.mp hb with hold | hnew
    · exact h.sq b hold
    · rw [List.mem_singleton.mp hnew]
      exact hblk

/-- A session that goes takes its mark with it. -/
theorem Marked.removeFd {w : Work} (h : Marked P w) (fd : Int32) :
    Marked P { w with fds := removeFd w.fds fd } := by
  refine ⟨h.rq, h.sq, fun n x hx => ?_⟩
  by_cases heq : n = fd
  · rw [heq] at hx
    simp [getFd, Worker.removeFd] at hx
  · simp only [getFd, Worker.removeFd, Function.update_of_ne heq] at hx
    exact h.fds n x hx

/-- A session that is saved has the mark of its block. -/
theorem Marked.saveFd {w : Work} (h : Marked P w) {fd : Int32} {sess : Sess}
    (hsess : P fd sess.conn) : Marked P { w with fds := saveFd w.fds fd sess } := by
  refine ⟨h.rq, h.sq, fun n x hx => ?_⟩
  by_cases heq : n = fd
  · rw [heq] at hx ⊢
    simp only [getFd, Worker.saveFd, Function.update_self, Option.some.injEq] at hx
    rw [← hx]
    exact hsess
  · simp only [getFd, Worker.saveFd, Function.update_of_ne heq] at hx
    exact h.fds n x hx

/-- `close_cli` copies the mark of the session to its `BLK_CLOSE`. -/
theorem Marked.closeCli {i fd : Int32} {pushed : Bool} {w w' : Work} {evs : List Ev}
    (h : Marked P w) (hclose : closeCli i fd pushed w = some (w', evs)) : Marked P w' := by
  unfold Proto.closeCli at hclose
  cases hx : getFd w.fds fd with
  | none =>
    rw [hx] at hclose
    cases hclose
    exact h
  | some x =>
    rw [hx] at hclose
    simp only [Option.ite_none_right_eq_some] at hclose
    cases hclose.2
    have hpush := h.pushSq (closeBlock i fd x.conn) (h.fds fd x hx) pushed
    exact ⟨hpush.rq, hpush.sq, hpush.fds⟩

/-- Handling a block copies its mark at most to a session. -/
theorem Marked.handleBlock {blk : Block} {w : Work} (h : Marked P w) (hblk : P blk.fd blk.conn)
    (pushed : Bool) : Marked P (handleBlock blk pushed w).1 := by
  unfold Proto.handleBlock
  cases blk.type with
  | blkData =>
    cases getFd w.fds blk.fd with
    | none => exact ⟨h.rq, h.sq, h.fds⟩
    | some x => exact ⟨h.rq, h.sq, h.fds⟩
  | blkOpen =>
    simp only
    by_cases hrej : (getFd w.fds blk.fd).isSome = true ∨ blk.data.length ≠ addrLen
    · rw [if_pos hrej]
      have hpush := h.pushSq (closeBlock blk.id blk.fd blk.conn) hblk pushed
      exact ⟨hpush.rq, hpush.sq, hpush.fds⟩
    · rw [if_neg hrej]
      exact ⟨h.rq, h.sq, (h.saveFd hblk).fds⟩
  | blkClose =>
    cases getFd w.fds blk.fd with
    | none => exact ⟨h.rq, h.sq, h.fds⟩
    | some x => exact ⟨h.rq, h.sq, h.fds⟩
  | blkAlign => exact ⟨h.rq, h.sq, h.fds⟩

/-- **Workers copy marks**: a step of a worker makes up none, but for what it takes a
garbled `rq` for. -/
theorem WorkStep.marked_of {i : Int32} {l : WorkLbl} {w w' : Work} {evs : List Ev}
    (hstep : WorkStep i w l w' evs) (h : Marked P w)
    (hgarbled : ∀ blk pushed, l = .recvGarbled blk pushed → P blk.fd blk.conn) : Marked P w' := by
  cases hstep with
  | recv pushed _ _ _ hrq =>
    refine h.handleBlock (h.rq _ ?_) pushed
    rw [hrq]
    exact List.mem_cons_self
  | recvGarbled blk pushed => exact h.handleBlock (hgarbled blk pushed rfl) pushed
  | procRet => exact ⟨h.rq, h.sq, h.fds⟩
  | procErr pushed _ _ _ hclose =>
    have hdone : Marked P { w with phase := .handled } := ⟨h.rq, h.sq, h.fds⟩
    exact hdone.closeCli hclose
  | cliRet => exact ⟨h.rq, h.sq, (h.removeFd _).fds⟩
  | blkRet => exact ⟨h.rq, h.sq, (h.removeFd _).fds⟩
  | pop =>
    refine ⟨fun b hb => h.rq b ?_, h.sq, h.fds⟩
    simp only at hb
    split at hb
    · exact hb
    · exact List.mem_of_mem_tail hb
  | sendToCli msg pushed hx => exact h.pushSq _ (h.fds _ _ hx) pushed
  | closeCli pushed hclose => exact h.closeCli hclose

/-- A garbled `rq` has no marks. -/
theorem WorkStep.marked {i : Int32} {l : WorkLbl} {w w' : Work} {evs : List Ev}
    (hstep : WorkStep i w l w' evs) (h : Marked P w)
    (hnone : w.garbled = true → ∀ fd, P fd none) : Marked P w' := by
  refine hstep.marked_of h fun blk pushed hl => ?_
  rw [hl] at hstep
  cases hstep with
  | recvGarbled _ _ _ _ hgarbled hconn =>
    rw [hconn]
    exact hnone hgarbled blk.fd

/-- A push to `rq` adds the mark of its block. -/
theorem pushRq_marked {P : Int32 → Int32 → Option Conn → Prop} {s : Sys}
    (h : ∀ i, Marked (P i) (s.works i)) (idx : Int32) (blk : Block)
    (hblk : P idx blk.fd blk.conn) (pushed : Bool) :
    ∀ i, Marked (P i) ((s.pushRq idx blk pushed).works i) := by
  intro i
  by_cases hi : i = idx
  swap
  · rw [pushRq_other s hi]
    exact h i
  cases pushed with
  | false => exact h i
  | true =>
    rw [hi, pushRq_self]
    refine ⟨fun b hb => ?_, (h idx).sq, (h idx).fds⟩
    rcases List.mem_append.mp hb with hold | hnew
    · exact (h idx).rq b hold
    · rw [List.mem_singleton.mp hnew]
      exact hblk

/-- `do_fd_close` adds the mark of the slot. -/
theorem doFdClose_marked {P : Int32 → Int32 → Option Conn → Prop} {s : Sys} {fd : Int32}
    (h : ∀ i, Marked (P i) (s.works i))
    (hslot : s.slots fd ≠ .null → P (s.slots fd).idx fd (s.slots fd).conn) (noted : Bool) :
    ∀ i, Marked (P i) ((doFdClose fd noted s).works i) := by
  rcases doFdClose_works fd noted s with ⟨_, heq⟩ | ⟨hne, heq⟩
  · rw [heq]
    exact h
  · rw [heq]
    exact pushRq_marked h _ (closeBlock _ fd _) (hslot hne) noted

/-- `mq_pop` on `sq` adds none. -/
theorem popSq_marked {P : Int32 → Int32 → Option Conn → Prop} {s : Sys}
    (h : ∀ i, Marked (P i) (s.works i)) (j : Int32) : ∀ i, Marked (P i) ((s.popSq j).works i) := by
  intro i
  by_cases hi : i = j
  · rw [hi, popSq_self]
    exact ⟨(h j).rq, fun b hb => (h j).sq b (List.mem_of_mem_tail hb), (h j).fds⟩
  · rw [popSq_other s hi]
    exact h i

end SServer.Proto
