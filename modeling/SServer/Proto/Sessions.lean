import SServer.Proto.Notify

/-!
# SServer.Proto.Sessions — one session for each registered client

In the runs in which no push fails, whenever the queues of a worker are empty,
its sessions are exactly those of the descriptors that the master has registered
as its clients. For the sessions that a worker has closed by itself,
the reason is a `BLK_CLOSE` on its way: as long as the worker has heard all there
is and the master has not closed the client, that block is in `sq`.

* `sessions_match_clients`: in every such run a `BLK_OPEN` finds no session of its descriptor,
  and with empty queues sessions and clients are the same.

All four kinds of push are to succeed here. What fails with the ones that carry an opening or a
closing is in `SServer.Proto.Atomic`.
-/

namespace SServer.Proto

open SServer.Lib SServer.Queue SServer.Worker

/-- No push to `sq` fails. -/
def WorkLbl.Pushed : WorkLbl → Prop
  | .recv pushed | .recvGarbled _ pushed => pushed = true
  | .procRet _ pushed => pushed = true
  | .sendToCli _ _ pushed | .closeCli _ pushed => pushed = true
  | .closedRet | .pop => True

/-- No push fails. -/
def Lbl.Pushed : Lbl → Prop
  | .master l => l.Pushed
  | .work _ l => l.Pushed

/-- A `BLK_CLOSE` for `n` is on its way to the master. -/
def CloseSent (w : Work) (n : Int32) : Prop := ∃ b ∈ w.sq, b.type = .blkClose ∧ b.fd = n

/-- A worker that has caught up on a registered client and dropped it has sent
a `BLK_CLOSE`. -/
def Notes (w : Work) (o : Int32 → Option Conn) : Prop :=
  ∀ n, o n ≠ none → CaughtUp n w.pending → Dropped w n → CloseSent w n

/-- The invariant. -/
structure Matched (s : Sys) : Prop where
  synced : Synced s
  notes : ∀ i, Notes (s.works i) fun n => connAt i (s.slots n)

/-- A step whose pushes succeed tells the master. -/
theorem WorkLbl.Pushed.told {l : WorkLbl} (h : l.Pushed) (w : Work) : l.Told w := by
  cases l with
  | procRet r pushed => exact fun _ _ _ _ => h
  | closeCli fd pushed => exact fun _ => h
  | recv | recvGarbled | closedRet | pop | sendToCli => trivial

/-- Where no push fails, every connection is told. -/
theorem Lbl.Pushed.told {l : Lbl} (h : l.Pushed) (s : Sys) : l.Told s := by
  cases l with
  | master l => exact MasterLbl.Pushed.told h s
  | work i l => exact WorkLbl.Pushed.told h (s.works i)

/-- Where a worker has heard all there is, agreement is a match. -/
theorem Agreed.matched {s : Sys} (h : Agreed s) : Matched s := by
  refine ⟨h.synced, fun i n hne hdata hdrop => ?_⟩
  rcases Option.ne_none_iff_exists'.mp hne with ⟨c, hc⟩
  rcases h.announces i n c hc hdata hdrop with ⟨b, hb, hclose, hfd, _⟩
  exact ⟨b, hb, hclose, hfd⟩

/-- Whose connection a slot holds for a worker, it holds. -/
theorem connAt_eq_some {i : Int32} {slot : Slot} {c : Conn} (h : connAt i slot = some c) :
    slot = .cli i c := by
  cases slot with
  | null | fresh | listen idx => cases h
  | cli idx conn =>
    simp only [connAt, Option.ite_none_right_eq_some, Option.some.injEq] at h
    rw [h.1, h.2]

/-- A worker that comes to a `BLK_OPEN` has no session for it. -/
theorem Synced.open_finds_none {s : Sys} (h : Synced s) {i : Int32} {blk : Block}
    {rest : List Block} (hidle : (s.works i).phase = .idle) (hrq : (s.works i).rq = blk :: rest)
    (htype : blk.type = .blkOpen) : getFd (s.works i).fds blk.fd = none := by
  rcases (h.follows i).oldest hidle hrq blk.fd with ⟨cur, cur', hold⟩
  have hstep := hold.step
  unfold lifeStep at hstep
  rw [if_pos rfl, htype] at hstep
  simp only [Option.ite_none_right_eq_some] at hstep
  cases hx : getFd (s.works i).fds blk.fd with
  | none => rfl
  | some x =>
    have hnone := (hold.sess x hx).symm.trans hstep.1.1
    exact absurd hnone ((h.marks i).fds blk.fd x hx).ne_none

/-- When all is delivered, a worker takes each descriptor for what it is, and has its
session. -/
theorem Matched.quiet {s : Sys} (h : Matched s) {i : Int32} (hrq : (s.works i).rq = [])
    (hsq : (s.works i).sq = []) (fd : Int32) :
    (getFd (s.works i).fds fd).isSome = true ↔ ∃ c, s.slots fd = .cli i c := by
  have hf := h.synced.follows i
  have hidle : (s.works i).phase = .idle := by
    by_contra hbusy
    exact hf.busy hbusy hrq
  have hpending : (s.works i).pending = [] := by
    unfold Work.pending
    rw [if_pos hidle, hrq]
  rcases hf.tracks fd with ⟨cur, htr⟩
  have hcur : cur = connAt i (s.slots fd) := by
    have hlife := htr.life
    rw [hpending] at hlife
    exact Option.some.inj hlife
  constructor
  · intro hsome
    rcases Option.isSome_iff_exists.mp hsome with ⟨x, hx⟩
    rcases (h.synced.marks i).fds fd x hx with ⟨c, _, hc, _⟩
    refine ⟨c, connAt_eq_some ?_⟩
    rw [← hcur, htr.sess x hx (by simp [hidle]), hc]
  · rintro ⟨c, hslot⟩
    cases hx : getFd (s.works i).fds fd with
    | some x => rfl
    | none =>
      have hne : connAt i (s.slots fd) ≠ none := by
        rw [hslot, connAt_self]
        simp
      have hdata : CaughtUp fd (s.works i).pending := by
        rw [hpending]
        exact fun b hb => (List.not_mem_nil hb).elim
      rcases h.notes i fd hne hdata (Or.inl hx) with ⟨b, hb, _⟩
      rw [hsq] at hb
      cases hb

/-- **Sessions and clients match.** In every run in which no push fails, a
`BLK_OPEN` that a worker comes to finds no session of its descriptor, and whenever
both queues of a worker are empty, it has sessions for exactly the descriptors
the master has registered as its clients. -/
theorem sessions_match_clients (listeners : Int32 → Option Int32) {ls : List Lbl} {s : Sys}
    (hpushed : ∀ l ∈ ls, l.Pushed) (hrun : exec sysStep ls (sysInit listeners) = some s) :
    (∀ i blk rest, (s.works i).phase = .idle → (s.works i).rq = blk :: rest →
      blk.type = .blkOpen → getFd (s.works i).fds blk.fd = none) ∧
    ∀ i, (s.works i).rq = [] → (s.works i).sq = [] →
      ∀ fd, (getFd (s.works i).fds fd).isSome = true ↔ ∃ c, s.slots fd = .cli i c := by
  have hmatched : Matched s := by
    have hagreed : Agreed s := by
      refine exec_invariant _ (C := fun l _ => l.Pushed) (fun l s t hs hl => ?_)
        (agreed_init listeners) (along_of_forall hpushed _) hrun
      exact hs.step (Lbl.Pushed.told hl s)
    exact hagreed.matched
  constructor
  · intro i blk rest hidle hrq htype
    exact hmatched.synced.open_finds_none hidle hrq htype
  · intro i hrq hsq fd
    exact hmatched.quiet hrq hsq fd

/-- A client is accepted as descriptor 5 and closed by its worker while it goes
away; the echo of each closing is handled, and the next client is accepted as 5. -/
def closedTwice : List Lbl :=
  [.master (.accept 3 5 [127, 0, 0, 1, 80, 0] true true), .work 0 (.recv true), .work 0 .pop,
    .work 0 (.closeCli 5 true), .work 0 .closedRet, .master (.hangup 5 true),
    .master (.mqSend 0 0 true true), .work 0 (.recv true), .work 0 .pop,
    .master (.accept 3 5 [127, 0, 0, 1, 81, 0] true true), .work 0 (.recv true), .work 0 .pop]

/-- The client that came last has its session. -/
theorem sessions_match_clients_closedTwice :
    ∃ s, exec sysStep closedTwice (sysInit oneListener) = some s ∧
      (getFd (s.works 0).fds 5).isSome = true := by
  have hsome : (exec sysStep closedTwice (sysInit oneListener)).isSome := by decide +kernel
  have hfacts : ∀ s ∈ exec sysStep closedTwice (sysInit oneListener),
      (s.works 0).rq = [] ∧ (s.works 0).sq = [] ∧ s.slots 5 = .cli 0 1 := by
    decide +kernel
  have hpushed : ∀ l ∈ closedTwice, l.Pushed := by
    simp [closedTwice, Lbl.Pushed, MasterLbl.Pushed, WorkLbl.Pushed]
  rcases Option.isSome_iff_exists.mp hsome with ⟨s, hrun⟩
  rcases hfacts s hrun with ⟨hrq, hsq, hslot⟩
  have hmatch := (sessions_match_clients oneListener hpushed hrun).2 0 hrq hsq 5
  exact ⟨s, hrun, hmatch.mpr ⟨1, hslot⟩⟩

end SServer.Proto
