import Mathlib.Data.Finset.Basic
import SServer.Lib.Run
import SServer.Table.EpInfo

/-!
# SServer.Table.MaxFd — `maxfd` and the descriptors below it

`maxfd` bounds the loops of `start_work` and `work_init`. `add_fdinfo_to_epinfo`
raises it, and `do_fd_close` searches for a new one when the greatest descriptor is
closed. The search stops at the first entry that is *closed*, so `maxfd` comes to
stand below all that is open, or nowhere.

* `MaxOk`: `maxfd` is no less than any open descriptor, and one of them.
* `MaxInv.add`, `MaxInv.close`: registering and closing, each with what goes wrong beside its
  condition.
* `maxStep_cases`: one call, on either side of its condition.
* `maxfd_bounds_iff`: the result, over whole runs of both calls.
* `lastLeaves_not_ok`: three descriptors of which the greatest is closed: `maxfd` is `-1`, and
  the loops see none of the other two.

Nothing is put on a list in these runs, so `do_fd_close` leaves the links as they are.
-/

namespace SServer.Table

open SServer.Lib SServer.Net

/-! ## Runs of openings and closings -/

/-- The table, and the descriptors that are registered and not yet closed. -/
structure MaxSt where
  ep : EpInfo
  live : Finset Nat

/-- A call of `add_fdinfo_to_epinfo`, with the success of `epoll_ctl`, or of
`do_fd_close`. -/
inductive MaxLbl where
  | add (ctl : Bool) (fd : Nat) (idx : Int) (type : FdType) (addr : FdAddr)
  | close (fd : Nat)

/-- The zeroed table. -/
def maxInit : MaxSt := { ep := epInit, live := ∅ }

/-- One call. Nobody registers a descriptor as `fd_type_null`. -/
def maxStep : MaxLbl → MaxSt → Option MaxSt
  | .add ctl fd idx type addr, s =>
    if type ≠ .null then
      some
        { ep := (addFdinfoToEpinfo ctl fd idx type addr s.ep).2
          live := if ctl then insert fd s.live else s.live }
    else none
  | .close fd, s =>
    if (s.ep.fds fd).type = .null then some s
    else (closeSlot fd s.ep).map fun ep => { ep := ep, live := s.live.erase fd }

/-- `maxfd` is no less than any open descriptor, and one of them if there are any. Then the
loops `for (i = 0; i <= epinfo.maxfd; ++i)` come by every open descriptor. -/
def MaxOk (s : MaxSt) : Prop :=
  (∀ n ∈ s.live, (n : Int) ≤ s.ep.maxfd) ∧
    (s.live.Nonempty → ∃ n ∈ s.live, s.ep.maxfd = n)

/-- The conditions: the greatest descriptor is closed as the last one, and the first
one that is registered is no less than `maxfd`. -/
def MaxCond : MaxLbl → MaxSt → Prop
  | .add ctl fd _ _ _, s => ctl = true → s.live = ∅ → s.ep.maxfd ≤ fd
  | .close fd, s => s.ep.maxfd = fd → fd ∈ s.live → ∀ n ∈ s.live, n = fd

/-- The invariant: an open descriptor's entry is in use, and no entry is listed. -/
structure MaxInv (s : MaxSt) : Prop where
  used : ∀ n ∈ s.live, (s.ep.fds n).type ≠ .null
  unlisted : ∀ n, (s.ep.fds n).flag = 0
  ok : MaxOk s

/-- No descriptor is open. -/
theorem maxInit_inv : MaxInv maxInit := by
  constructor
  · intro n hn
    cases Finset.notMem_empty n hn
  · intro n
    rfl
  · constructor
    · intro n hn
      cases Finset.notMem_empty n hn
    · rintro ⟨n, hn⟩
      cases Finset.notMem_empty n hn

/-! ## Steps -/

/-- **Registering** keeps `maxfd` an open descriptor, unless it falls short of a
stale one. -/
theorem MaxInv.add {s : MaxSt} (h : MaxInv s) (fd : Nat) (idx : Int) {type : FdType}
    (htype : type ≠ .null) (addr : FdAddr) :
    let t : MaxSt := { ep := addFdinfo fd idx type addr s.ep, live := insert fd s.live }
    (s.live = ∅ → s.ep.maxfd ≤ fd) ∧ MaxInv t ∨
      ¬ (s.live = ∅ → s.ep.maxfd ≤ fd) ∧ ¬ MaxOk t := by
  intro t
  rcases addFdinfo_frame fd idx type addr s.ep with ⟨hfds, hmax, _, _⟩
  have hmax' : t.ep.maxfd = max s.ep.maxfd fd := hmax
  by_cases hcond : s.live = ∅ → s.ep.maxfd ≤ fd
  · left
    refine ⟨hcond, ⟨?_, ?_, ?_, ?_⟩⟩
    · intro n hn
      by_cases heq : n = fd
      · simp only [t, hfds, heq, Function.update_self]
        exact htype
      · simp only [t, hfds, Function.update_of_ne heq]
        exact h.used n (Finset.mem_of_mem_insert_of_ne hn heq)
    · intro n
      by_cases heq : n = fd
      · simp only [t, hfds, heq, Function.update_self]
        rfl
      · simp only [t, hfds, Function.update_of_ne heq]
        exact h.unlisted n
    · intro n hn
      rw [hmax']
      rcases Finset.mem_insert.mp hn with heq | hold
      · rw [heq]
        omega
      · exact le_trans (h.ok.1 n hold) (le_max_left _ _)
    · intro _
      rw [hmax']
      by_cases hle : s.ep.maxfd ≤ fd
      · exact ⟨fd, Finset.mem_insert_self fd _, max_eq_right hle⟩
      · -- `maxfd` is above the new one, so it is an open descriptor by the condition
        have hlive : s.live.Nonempty := by
          rw [Finset.nonempty_iff_ne_empty]
          exact fun hempty => hle (hcond hempty)
        rcases h.ok.2 hlive with ⟨n, hn, heq⟩
        exact ⟨n, Finset.mem_insert_of_mem hn, by omega⟩
  · right
    refine ⟨hcond, fun hok => ?_⟩
    rw [Classical.not_imp] at hcond
    rcases hcond with ⟨hempty, hgt⟩
    rcases hok.2 ⟨fd, Finset.mem_insert_self fd _⟩ with ⟨n, hn, heq⟩
    -- the new one is the only one open, and `maxfd` is above it
    have hn' : n = fd := by simpa [t, hempty] using hn
    rw [hmax', hn'] at heq
    omega

/-- **Closing** the greatest descriptor leaves `maxfd` at none that is open. -/
theorem MaxInv.close {s : MaxSt} (h : MaxInv s) {fd : Nat} {ep : EpInfo}
    (hclosed : Closed fd s.ep ep) (hflag : ∀ n, (ep.fds n).flag = 0) :
    let t : MaxSt := { ep := ep, live := s.live.erase fd }
    MaxCond (.close fd) s ∧ MaxInv t ∨ ¬ MaxCond (.close fd) s ∧ ¬ MaxOk t := by
  intro t
  have hused : ∀ n ∈ t.live, (t.ep.fds n).type ≠ .null := by
    intro n hn
    rcases Finset.mem_erase.mp hn with ⟨hne, hold⟩
    simp only [t, hclosed.other n hne]
    exact h.used n hold
  by_cases hmax : s.ep.maxfd = fd
  swap
  · -- another one is the greatest
    left
    refine ⟨fun heq => absurd heq hmax, hused, hflag, ?_, ?_⟩
    · intro n hn
      simp only [t, hclosed.maxfd hmax]
      exact h.ok.1 n (Finset.mem_of_mem_erase hn)
    · rintro ⟨m, hm⟩
      rcases h.ok.2 ⟨m, Finset.mem_of_mem_erase hm⟩ with ⟨n, hn, heq⟩
      refine ⟨n, Finset.mem_erase.mpr ⟨?_, hn⟩, ?_⟩
      · intro hfd
        rw [hfd] at heq
        exact hmax heq
      · simp only [t, hclosed.maxfd hmax]
        exact heq
  by_cases hlast : ∀ n ∈ s.live, n = fd
  · -- and nothing is left
    left
    have hnone : ∀ n, n ∉ t.live := by
      intro n hn
      rcases Finset.mem_erase.mp hn with ⟨hne, hold⟩
      exact hne (hlast n hold)
    refine ⟨fun _ _ => hlast, hused, hflag, fun n hn => absurd hn (hnone n), ?_⟩
    rintro ⟨n, hn⟩
    exact absurd hn (hnone n)
  · right
    simp only [not_forall] at hlast
    rcases hlast with ⟨m, hm, hne⟩
    have hlive : fd ∈ s.live := by
      rcases h.ok.2 ⟨m, hm⟩ with ⟨n, hn, heq⟩
      rw [hmax] at heq
      rw [Int.ofNat.inj heq]
      exact hn
    refine ⟨fun hcond => hne (hcond hmax hlive m hm), fun hok => ?_⟩
    rcases hok.2 ⟨m, Finset.mem_erase.mpr ⟨hne, hm⟩⟩ with ⟨n, hn, heq⟩
    rcases Finset.mem_erase.mp hn with ⟨_, hold⟩
    rcases hclosed.below hmax with hnone | ⟨i, _, hfound, hnull⟩
    · have hneg : (n : Int) = -1 := heq.symm.trans hnone
      omega
    · have hni : n = i := Int.ofNat.inj (heq.symm.trans hfound)
      rw [hni] at hold
      exact h.used i hold hnull

/-- **One call**, on either side of its condition. -/
theorem maxStep_cases {l : MaxLbl} {s t : MaxSt} (h : MaxInv s) (hstep : maxStep l s = some t) :
    MaxCond l s ∧ MaxInv t ∨ ¬ MaxCond l s ∧ ¬ MaxOk t := by
  cases l with
  | add ctl fd idx type addr =>
    simp only [maxStep, Option.ite_none_right_eq_some] at hstep
    rcases hstep with ⟨htype, hstep⟩
    cases ctl with
    | false =>
      left
      rw [← Option.some.inj hstep]
      exact ⟨fun hctl => (nomatch hctl), h⟩
    | true =>
      rw [← Option.some.inj hstep]
      rcases h.add fd idx htype addr with ⟨hcond, hinv⟩ | ⟨hcond, hbad⟩
      · exact Or.inl ⟨fun _ => hcond, hinv⟩
      · exact Or.inr ⟨fun hall => hcond (hall rfl), hbad⟩
  | close fd =>
    simp only [maxStep] at hstep
    by_cases hnull : (s.ep.fds fd).type = .null
    · left
      rw [if_pos hnull] at hstep
      rw [← Option.some.inj hstep]
      exact ⟨fun _ hlive => absurd hnull (h.used fd hlive), h⟩
    · rw [if_neg hnull] at hstep
      rcases Option.map_eq_some_iff.mp hstep with ⟨ep, hep, heq⟩
      rw [← heq]
      have hclosed := closeSlot_closed hep
      refine h.close hclosed fun n => ?_
      by_cases hn : n = fd
      · rw [closeSlot_unlisted (h.unlisted fd)] at hep
        rw [hn, ← Option.some.inj hep, (replaceMaxfd_frame fd _).1]
        simp only [freeSlot, setFd_self]
        exact h.unlisted fd
      · rw [hclosed.other n hn]
        exact h.unlisted n

/-- **`maxfd` bounds the open descriptors, and is one of them, in every state of a
run exactly when** the greatest one is only ever closed as the last one, and the
first to be registered is no less than `maxfd`. -/
theorem maxfd_bounds_iff (ls : List MaxLbl) :
    Throughout maxStep MaxOk ls maxInit ↔ Along maxStep MaxCond ls maxInit := by
  apply throughout_iff_along MaxInv
  · exact fun s hs => hs.ok
  · exact fun l s t hs hstep => maxStep_cases hs hstep
  · exact maxInit_inv

/-- Three clients come as 3, 4 and 5, and the last one leaves. -/
def lastLeaves : List MaxLbl :=
  [.add true 3 0 .cli ⟨0, 0⟩, .add true 4 0 .cli ⟨0, 0⟩, .add true 5 0 .cli ⟨0, 0⟩, .close 5]

/-- None of the entries below 5 has ever been closed, so the search runs past the
two clients. -/
theorem lastLeaves_not_ok :
    ¬ ∀ (ls : List MaxLbl) (s : MaxSt), exec maxStep ls maxInit = some s → MaxOk s := by
  intro hclaim
  have hsome : (exec maxStep lastLeaves maxInit).isSome := by decide +kernel
  have hfacts : ∀ s ∈ exec maxStep lastLeaves maxInit, 4 ∈ s.live ∧ s.ep.maxfd = -1 := by
    decide +kernel
  rcases Option.isSome_iff_exists.mp hsome with ⟨s, hrun⟩
  rcases hfacts s hrun with ⟨hlive, hmax⟩
  have hle := (hclaim lastLeaves s hrun).1 4 hlive
  rw [hmax] at hle
  omega

end SServer.Table
