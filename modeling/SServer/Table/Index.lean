import SServer.Table.Lists

/-!
# SServer.Table.Index — the indices of `evs` and `fds`

`master_init` and `work_init` allocate two tables each, with sizes from the settings:
`evs` for the answers of `epoll_wait`, and `fds` for the entries of the descriptors. The
indices are the kernel's choice. A process is modelled by the sizes it has allocated, its
table, and the indices that its last step has used.

The result: all indices are inside exactly when a worker is never told of more than
`nr_max_event / 10` events, every descriptor that is registered is below `nr_max_fd`, and
no entry that `start_work` has closed is come to on a list. `master_dispatch` allocates
what it passes to `epoll_wait`.

* `tableStep_renumbered`: a change of the table leaves an entry its number, or takes it, or
  registers it.
* `IndexInv.uses_inside`: a change uses indices inside exactly when its numbers fit.
* `indexStep_cases`: one step, on either side of its condition.
* `in_tables_iff`: the result, for both processes and all settings.
* `twoEvents_not_inTables`: two events, and room for one.

Entries named by the kernel are all that is indexed here; the bounds of the rings are in
`SServer.Queue.Bounds` and those of the buffers in `SServer.Net`.
-/

namespace SServer.Table

open SServer.Lib SServer.Net

/-! ## Processes -/

/-- The two kinds of process. -/
inductive Proc where
  | master
  | work
deriving DecidableEq

/-- The settings that the sizes depend on. -/
structure Limits where
  nrMaxEvent : Int
  nrMaxFd : Int

/-- `calloc` for `n` elements: a negative number is more than there is. -/
def calloc (n : Int) : Option Int := if 0 ≤ n then some n else none

/-- The number of elements that `master_init` and `work_init` allocate for `evs`. -/
def evsElems (lim : Limits) : Proc → Int
  | .master => lim.nrMaxEvent
  | .work => lim.nrMaxEvent.tdiv 10

/-- A process: the elements behind `evs` and `fds`, the table, the numbers that have ever
been registered, those of them that have ever been on a list, and the indices into `evs`
and `fds` that the last step has used. -/
structure Tables where
  evs : Int
  fds : Int
  ep : EpInfo
  known : List Nat
  listed : List Nat
  evsUsed : List Int
  fdsUsed : List Int

/-- `master_init`, and `work_init` behind the release of the master's resources, as far as
the tables go. `epoll_create` refuses a size that is not positive. -/
def initTables (lim : Limits) (p : Proc) : Option Tables :=
  if 0 < lim.nrMaxEvent then
    (calloc (evsElems lim p)).bind fun evs => (calloc lim.nrMaxFd).map fun fds =>
      { evs := evs
        fds := fds
        ep := epInit
        known := []
        listed := []
        evsUsed := []
        fdsUsed := [] }
  else none

/-! ## Indices -/

/-- The indices of a loop from zero up to `n`. -/
def upTo (n : Int) : List Int := (List.range (n + 1).toNat).map fun k : Nat => (k : Int)

/-- The entries that `do_fd_close` looks at for a new `maxfd`. -/
def searchUses (fds : Nat → FdWrap) : Nat → List Int
  | 0 => []
  | i + 1 => (i : Int) :: if (fds i).type = .null then [] else searchUses fds i

/-- The entries that `do_fd_close` looks at. -/
def closeUses (fd : Nat) (ep : EpInfo) : List Int :=
  (fd : Int) :: if (ep.fds fd).type ≠ .null ∧ ep.maxfd = fd then searchUses ep.fds fd else []

/-- The entries that a change of the table looks at. -/
def TableLbl.uses (ep : EpInfo) : TableLbl → List Int
  | .add ctl fd _ _ _ => if ctl then [(fd : Int)] else []
  | .read fd _ => [(fd : Int)]
  | .toClose fd => [(fd : Int)]
  | .offClose fd => [(fd : Int)]
  | .close fd => closeUses fd ep
  | .restart _ => upTo ep.maxfd

/-- The number that it registers. -/
def TableLbl.learns : TableLbl → List Nat
  | .add ctl fd _ _ _ => if ctl then [fd] else []
  | _ => []

/-- The number that it puts on a list. -/
def TableLbl.lists : TableLbl → List Nat
  | .read fd full => if full then [fd] else []
  | .toClose fd => [fd]
  | _ => []

/-- The numbers that it is given have been registered, and only the master restarts. -/
def TableLbl.Enabled (p : Proc) (known : List Nat) : TableLbl → Prop
  | .add _ _ _ _ _ => True
  | .read fd _ => fd ∈ known
  | .toClose fd => fd ∈ known
  | .offClose fd => fd ∈ known
  | .close fd => fd ∈ known
  | .restart _ => p = .master

instance (p : Proc) (known : List Nat) : ∀ l : TableLbl, Decidable (l.Enabled p known)
  | .add _ _ _ _ _ => inferInstanceAs (Decidable True)
  | .read fd _ => inferInstanceAs (Decidable (fd ∈ known))
  | .toClose fd => inferInstanceAs (Decidable (fd ∈ known))
  | .offClose fd => inferInstanceAs (Decidable (fd ∈ known))
  | .close fd => inferInstanceAs (Decidable (fd ∈ known))
  | .restart _ => inferInstanceAs (Decidable (p = .master))

/-! ## Steps -/

/-- What a process does: it changes its table; `do_fd_open` is given `newfd` by `accept`
(a refused push closes the listener, which is a step of its own); `epoll_wait` reports
descriptors, and the loop goes through them; `handle_readlist` or `handle_closelist` comes
to an entry; another function is given a descriptor, from a block or by the plugin; or a
child goes through the copy of the table that it inherits. -/
inductive IndexLbl where
  | table (l : TableLbl)
  | accept (fd : Nat) (newfd : Int) (ctl : Bool) (addr : FdAddr)
  | wait (fds : List Nat)
  | visit (n : Nat)
  | use (fd : Nat)
  | inherit

/-- The label's change of the table. -/
def Tables.change (l : TableLbl) (s : Tables) : Option Tables :=
  (tableStep l s.ep).map fun ep =>
    { s with
      ep := ep
      known := l.learns ++ s.known
      listed := l.lists ++ s.listed
      evsUsed := []
      fdsUsed := l.uses s.ep }

/-- Indices are used, and nothing is changed. -/
def Tables.look (s : Tables) (evs fds : List Int) : Tables :=
  { s with evsUsed := evs, fdsUsed := fds }

/-- One step. -/
def indexStep (lim : Limits) (p : Proc) : IndexLbl → Tables → Option Tables
  | .table l, s => if l.Enabled p s.known then s.change l else none
  | .accept fd newfd ctl addr, s =>
    if p = .master ∧ fd ∈ s.known then
      if 0 < newfd then
        (s.change (.add ctl newfd.toNat (s.ep.fds fd).idx .cli addr)).map fun t =>
          t.look [] ((fd : Int) :: t.fdsUsed)
      else some (s.look [] [])
    else none
  | .wait fds, s =>
    -- as many as `epoll_wait` has been told there is room for
    if (fds.length : Int) ≤ lim.nrMaxEvent ∧ ∀ fd ∈ fds, fd ∈ s.known then
      some (s.look (upTo (fds.length - 1)) (fds.map fun fd : Nat => (fd : Int)))
    else none
  | .visit n, s =>
    -- the index is `pfd->fd`
    if n ∈ s.listed then some (s.look [] [(s.ep.fds n).fd]) else none
  | .use fd, s => if fd ∈ s.known then some (s.look [] [(fd : Int)]) else none
  | .inherit, s => if p = .master then some (s.look [] (upTo s.ep.maxfd)) else none

/-- The last step's indices are inside the tables. -/
def InTables (s : Tables) : Prop :=
  (∀ k ∈ s.evsUsed, 0 ≤ k ∧ k < s.evs) ∧ ∀ i ∈ s.fdsUsed, 0 ≤ i ∧ i < s.fds

/-! ## The condition -/

/-- A descriptor that is registered is below `nr_max_fd`. A loop up to `maxfd`, which is
zero before anything is registered, takes that there is an entry. -/
def NumberFits (lim : Limits) : TableLbl → EpInfo → Prop
  | .add ctl fd _ _ _, _ => ctl = true → (fd : Int) < lim.nrMaxFd
  | .restart _, ep => 0 ≤ ep.maxfd → 0 < lim.nrMaxFd
  | _, _ => True

/-- The conditions of all steps: also, a worker has room for the events, and an entry that
is come to has not been closed by `start_work`. -/
def IndexFits (lim : Limits) (p : Proc) : IndexLbl → Tables → Prop
  | .table l, s => NumberFits lim l s.ep
  | .accept _ newfd ctl _, _ => 0 < newfd → ctl = true → newfd < lim.nrMaxFd
  | .wait fds, _ => p = .work → (fds.length : Int) ≤ lim.nrMaxEvent.tdiv 10
  | .visit n, s => (s.ep.fds n).fd ≠ -1
  | .use _, _ => True
  | .inherit, s => 0 ≤ s.ep.maxfd → 0 < lim.nrMaxFd

instance (lim : Limits) : ∀ (l : TableLbl) (ep : EpInfo), Decidable (NumberFits lim l ep)
  | .add ctl fd _ _ _, _ => inferInstanceAs (Decidable (ctl = true → (fd : Int) < lim.nrMaxFd))
  | .restart _, ep => inferInstanceAs (Decidable (0 ≤ ep.maxfd → 0 < lim.nrMaxFd))
  | .read _ _, _ | .toClose _, _ | .offClose _, _ | .close _, _ => isTrue trivial

instance (lim : Limits) (p : Proc) : ∀ (l : IndexLbl) (s : Tables),
    Decidable (IndexFits lim p l s)
  | .table l, s => inferInstanceAs (Decidable (NumberFits lim l s.ep))
  | .accept _ newfd ctl _, _ =>
    inferInstanceAs (Decidable (0 < newfd → ctl = true → newfd < lim.nrMaxFd))
  | .wait fds, _ =>
    inferInstanceAs (Decidable (p = .work → (fds.length : Int) ≤ lim.nrMaxEvent.tdiv 10))
  | .visit n, s => inferInstanceAs (Decidable ((s.ep.fds n).fd ≠ -1))
  | .use _, _ => isTrue trivial
  | .inherit, s => inferInstanceAs (Decidable (0 ≤ s.ep.maxfd → 0 < lim.nrMaxFd))

/-! ## The numbers of a table -/

/-- The indices of the loop. -/
theorem mem_upTo {n i : Int} : i ∈ upTo n ↔ 0 ≤ i ∧ i ≤ n := by
  unfold upTo
  rw [List.mem_map]
  constructor
  · rintro ⟨k, hk, rfl⟩
    rw [List.mem_range] at hk
    omega
  · rintro ⟨h0, hn⟩
    refine ⟨i.toNat, ?_, Int.toNat_of_nonneg h0⟩
    rw [List.mem_range]
    omega

/-- The search looks at entries below the one that is closed. -/
theorem searchUses_below (fds : Nat → FdWrap) : ∀ {fd : Nat} {i : Int},
    i ∈ searchUses fds fd → 0 ≤ i ∧ i < fd := by
  intro fd
  induction fd with
  | zero =>
    intro i hi
    cases hi
  | succ k ih =>
    intro i hi
    unfold searchUses at hi
    rcases List.mem_cons.mp hi with rfl | hrest
    · omega
    · split at hrest
      · cases hrest
      · have hbelow := ih hrest
        omega

/-- `do_fd_close` looks at nothing above its descriptor. -/
theorem closeUses_le {fd : Nat} {ep : EpInfo} {i : Int} (hi : i ∈ closeUses fd ep) :
    0 ≤ i ∧ i ≤ fd := by
  unfold closeUses at hi
  rcases List.mem_cons.mp hi with rfl | hrest
  · omega
  · split at hrest
    · have hbelow := searchUses_below ep.fds hrest
      omega
    · cases hrest

/-- What an entry's number and `maxfd` may be behind a change of the table. -/
structure Renumbered (l : TableLbl) (ep ep' : EpInfo) : Prop where
  fd : ∀ n, (ep'.fds n).fd = (ep.fds n).fd ∨ (ep'.fds n).fd = -1 ∨
    n ∈ l.learns ∧ (ep'.fds n).fd = n
  maxfd : ep'.maxfd ≤ ep.maxfd ∨ ep'.maxfd = -1 ∨ ∃ n ∈ l.learns, ep'.maxfd = n
  learnt : ∀ n ∈ l.learns, (ep'.fds n).fd = n

/-- A flag is no number. -/
theorem Reflagged.renumbered {l : TableLbl} {fd : Nat} {ep ep' : EpInfo}
    (h : Reflagged fd ep ep') (hlearns : l.learns = []) : Renumbered l ep ep' := by
  refine ⟨fun n => Or.inl ?_, Or.inl (Int.le_of_eq h.maxfd), fun n hn => ?_⟩
  · by_cases hn : n = fd
    · rcases h.self with ⟨flag, hself⟩
      rw [hn, hself]
    · rw [h.other n hn]
  · rw [hlearns] at hn
    cases hn

/-- To put an entry on the closelist changes its flag and the links. -/
theorem doAddToCloselist_reflags {fd : Nat} {ep ep' : EpInfo}
    (h : doAddToCloselist fd ep = some ep') : Reflagged fd ep ep' := by
  rcases Option.bind_eq_some_iff.mp h with ⟨m, hm, hadd⟩
  exact (doDelFromReadlist_reflags hm).trans (reflagged_of_map hadd)

/-- Registering gives an entry its number. -/
theorem addFdinfo_renumbered (fd : Nat) (idx : Int) (type : FdType) (addr : FdAddr)
    (ep : EpInfo) :
    Renumbered (.add true fd idx type addr) ep (addFdinfo fd idx type addr ep) := by
  rcases addFdinfo_frame fd idx type addr ep with ⟨hfds, hmax, _, _⟩
  have hself : ((addFdinfo fd idx type addr ep).fds fd).fd = fd := by
    rw [hfds, Function.update_self]
    rfl
  refine ⟨fun n => ?_, ?_, fun n hn => ?_⟩
  · by_cases hn : n = fd
    · rw [hn]
      exact Or.inr (Or.inr ⟨List.mem_singleton_self fd, hself⟩)
    · rw [hfds, Function.update_of_ne hn]
      exact Or.inl rfl
  · rw [hmax]
    rcases Int.le_total fd ep.maxfd with hle | hle
    · exact Or.inl (by omega)
    · exact Or.inr (Or.inr ⟨fd, List.mem_singleton_self fd, by omega⟩)
  · rw [List.mem_singleton.mp hn]
    exact hself

/-- `do_fd_close` leaves all numbers. -/
theorem closeFd_renumbered {fd : Nat} {ep ep' : EpInfo} (h : closeFd fd ep = some ep') :
    Renumbered (.close fd) ep ep' := by
  unfold closeFd at h
  split at h
  · cases h
    exact ⟨fun n => Or.inl rfl, Or.inl (Int.le_refl _), List.forall_mem_nil _⟩
  have hclosed := closeSlot_closed h
  refine ⟨fun n => Or.inl ?_, ?_, List.forall_mem_nil _⟩
  · by_cases hn : n = fd
    · rcases hclosed.self with ⟨flag, hself⟩
      rw [hn, hself]
    · rw [hclosed.other n hn]
  · by_cases hmax : ep.maxfd = fd
    · rcases hclosed.below hmax with hnone | ⟨i, hi, heq, _⟩
      · exact Or.inr (Or.inl hnone)
      · left
        omega
    · exact Or.inl (Int.le_of_eq (hclosed.maxfd hmax))

/-- **Every change of the table** leaves an entry its number, or takes it, or registers
it. -/
theorem tableStep_renumbered {l : TableLbl} {ep ep' : EpInfo} (h : tableStep l ep = some ep') :
    Renumbered l ep ep' := by
  cases l with
  | add ctl fd idx type addr =>
    simp only [tableStep, Option.ite_none_right_eq_some] at h
    rw [← Option.some.inj h.2]
    cases ctl with
    | false => exact ⟨fun n => Or.inl rfl, Or.inl (Int.le_refl _), List.forall_mem_nil _⟩
    | true => exact addFdinfo_renumbered fd idx type addr ep
  | read fd full =>
    simp only [tableStep, Option.ite_none_right_eq_some] at h
    cases full with
    | true => exact (doAddToReadlist_reflags h.2).renumbered rfl
    | false => exact (doDelFromReadlist_reflags h.2).renumbered rfl
  | toClose fd =>
    simp only [tableStep, Option.ite_none_right_eq_some] at h
    exact (doAddToCloselist_reflags h.2).renumbered rfl
  | offClose fd => exact (doDelFromCloselist_reflags h).renumbered rfl
  | close fd => exact closeFd_renumbered h
  | restart idx =>
    rw [← Option.some.inj h]
    rcases closeDowned_frame idx ep (ep.maxfd + 1).toNat with ⟨hfds, hmax, _⟩
    refine ⟨fun n => ?_, Or.inl (Int.le_of_eq hmax), List.forall_mem_nil _⟩
    have hentry : (closeDownedFds idx ep).1.fds n = _ := hfds n
    rw [hentry]
    split
    · exact Or.inr (Or.inl rfl)
    · exact Or.inl rfl

/-! ## The invariant -/

/-- Every number that was registered is below `nr_max_fd`, its entry has it or `-1`, and
`maxfd` is not above all of them, or not above zero. -/
structure IndexInv (lim : Limits) (p : Proc) (s : Tables) : Prop where
  evs : s.evs = evsElems lim p
  room : 0 ≤ s.evs
  fds : s.fds = lim.nrMaxFd
  below : ∀ n ∈ s.known, (n : Int) < s.fds
  fd : ∀ n ∈ s.known, (s.ep.fds n).fd = n ∨ (s.ep.fds n).fd = -1
  listed : ∀ n ∈ s.listed, n ∈ s.known
  maxfd : s.ep.maxfd ≤ 0 ∨ ∃ n ∈ s.known, s.ep.maxfd ≤ n
  inside : InTables s

variable {lim : Limits} {p : Proc} {s t : Tables}

/-- Nothing is registered behind the allocations. -/
theorem initTables_inv (h : initTables lim p = some s) : IndexInv lim p s := by
  simp only [initTables, Option.ite_none_right_eq_some, Option.bind_eq_some_iff,
    Option.map_eq_some_iff, calloc] at h
  rcases h with ⟨_, evs, ⟨hroom, hevs⟩, fds, ⟨_, hfds⟩, rfl⟩
  cases hevs
  cases hfds
  exact ⟨rfl, hroom, rfl, List.forall_mem_nil _, List.forall_mem_nil _, List.forall_mem_nil _,
    Or.inl (Int.le_refl 0), List.forall_mem_nil _, List.forall_mem_nil _⟩

/-- Looking at entries changes nothing. -/
theorem IndexInv.look (h : IndexInv lim p s) {evs fds : List Int}
    (hin : InTables (s.look evs fds)) : IndexInv lim p (s.look evs fds) :=
  ⟨h.evs, h.room, h.fds, h.below, h.fd, h.listed, h.maxfd, hin⟩

/-- A registered number is an index. -/
theorem IndexInv.known_inside (h : IndexInv lim p s) {n : Nat} (hn : n ∈ s.known) :
    0 ≤ (n : Int) ∧ (n : Int) < s.fds := ⟨Int.natCast_nonneg n, h.below n hn⟩

/-- A loop up to `maxfd` is inside if there are entries at all. -/
theorem IndexInv.upTo_inside (h : IndexInv lim p s) :
    (∀ i ∈ upTo s.ep.maxfd, 0 ≤ i ∧ i < s.fds) ↔ (0 ≤ s.ep.maxfd → 0 < lim.nrMaxFd) := by
  rw [← h.fds]
  constructor
  · intro hall hmax
    exact (hall 0 (mem_upTo.mpr ⟨Int.le_refl 0, hmax⟩)).2
  · intro hpos i hi
    obtain ⟨h0, hle⟩ := mem_upTo.mp hi
    refine ⟨h0, ?_⟩
    have hsome := hpos (by omega)
    -- `maxfd` is below a number that fits, or there is the first entry at least
    rcases h.maxfd with hmax | ⟨n, hn, hmax⟩
    · omega
    · have hbelow := h.below n hn
      omega

/-- **A change of the table** uses indices inside exactly when its numbers fit. -/
theorem IndexInv.uses_inside (h : IndexInv lim p s) {l : TableLbl} (hen : l.Enabled p s.known) :
    (∀ i ∈ l.uses s.ep, 0 ≤ i ∧ i < s.fds) ↔ NumberFits lim l s.ep := by
  have hone : ∀ n : Nat, n ∈ s.known → ∀ i ∈ [(n : Int)], 0 ≤ i ∧ i < s.fds := by
    intro n hn i hi
    rw [List.mem_singleton.mp hi]
    exact h.known_inside hn
  cases l with
  | add ctl fd idx type addr =>
    cases ctl with
    | false => exact ⟨fun _ hctl => absurd hctl Bool.false_ne_true, fun _ => List.forall_mem_nil _⟩
    | true =>
      unfold NumberFits
      rw [← h.fds]
      constructor
      · exact fun hall _ => (hall fd (List.mem_singleton_self _)).2
      · intro hfits i hi
        rw [List.mem_singleton.mp hi]
        exact ⟨Int.natCast_nonneg fd, hfits rfl⟩
  | read fd full => exact ⟨fun _ => trivial, fun _ => hone fd hen⟩
  | toClose fd => exact ⟨fun _ => trivial, fun _ => hone fd hen⟩
  | offClose fd => exact ⟨fun _ => trivial, fun _ => hone fd hen⟩
  | close fd =>
    refine ⟨fun _ => trivial, fun _ i hi => ?_⟩
    have hbelow := h.below fd hen
    obtain ⟨h0, hle⟩ := closeUses_le hi
    omega
  | restart idx => exact h.upTo_inside

/-- What is put on a list has been registered. -/
theorem TableLbl.lists_known {l : TableLbl} {known : List Nat} (hen : l.Enabled p known) {n : Nat}
    (hn : n ∈ l.lists) : n ∈ known := by
  cases l with
  | read fd full =>
    cases full with
    | true =>
      rw [List.mem_singleton.mp hn]
      exact hen
    | false => cases hn
  | toClose fd =>
    rw [List.mem_singleton.mp hn]
    exact hen
  | add | offClose | close | restart => cases hn

/-- A change whose numbers fit keeps the invariant, whatever else it looks at inside. -/
theorem IndexInv.change (h : IndexInv lim p s) {l : TableLbl} (hen : l.Enabled p s.known)
    (hlearns : ∀ n ∈ l.learns, (n : Int) < s.fds) (hstep : s.change l = some t) {fds : List Int}
    (hin : InTables (t.look [] fds)) : IndexInv lim p (t.look [] fds) := by
  obtain ⟨ep, hep, rfl⟩ := Option.map_eq_some_iff.mp hstep
  have hnum := tableStep_renumbered hep
  refine ⟨h.evs, h.room, h.fds, ?_, ?_, ?_, ?_, hin⟩
  · intro n hn
    rcases List.mem_append.mp hn with hnew | hold
    · exact hlearns n hnew
    · exact h.below n hold
  · intro n hn
    rcases List.mem_append.mp hn with hnew | hold
    · exact Or.inl (hnum.learnt n hnew)
    · rcases hnum.fd n with hsame | hgone | ⟨_, hnew⟩
      · exact hsame ▸ h.fd n hold
      · exact Or.inr hgone
      · exact Or.inl hnew
  · intro n hn
    rcases List.mem_append.mp hn with hnew | hold
    · exact List.mem_append_right _ (TableLbl.lists_known hen hnew)
    · exact List.mem_append_right _ (h.listed n hold)
  · rcases hnum.maxfd with hle | hnone | ⟨n, hn, hmax⟩
    · rcases h.maxfd with hmax | ⟨n, hn, hmax⟩
      · exact Or.inl (Int.le_trans hle hmax)
      · exact Or.inr ⟨n, List.mem_append_right _ hn, Int.le_trans hle hmax⟩
    · left
      simp only [Tables.look, hnone]
      decide
    · exact Or.inr ⟨n, List.mem_append_left _ hn, Int.le_of_eq hmax⟩

/-! ## Steps and their conditions -/

/-- What a change of the table leaves in the record of the indices. -/
theorem change_uses {l : TableLbl} (h : s.change l = some t) :
    t.evsUsed = [] ∧ t.fdsUsed = l.uses s.ep ∧ t.fds = s.fds := by
  obtain ⟨ep, _, rfl⟩ := Option.map_eq_some_iff.mp h
  exact ⟨rfl, rfl, rfl⟩

/-- **A change of the table**, on either side of the condition. -/
theorem IndexInv.table_cases (h : IndexInv lim p s) {l : TableLbl} (hen : l.Enabled p s.known)
    (hstep : s.change l = some t) :
    NumberFits lim l s.ep ∧ IndexInv lim p t ∨ ¬ NumberFits lim l s.ep ∧ ¬ InTables t := by
  obtain ⟨hevs, hfds, hsize⟩ := change_uses hstep
  have hlook : t.look [] t.fdsUsed = t := by
    rw [← hevs]
    rfl
  by_cases hfits : NumberFits lim l s.ep
  · left
    refine ⟨hfits, ?_⟩
    rw [← hlook]
    refine h.change hen (fun n hn => ?_) hstep ?_
    · cases l with
      | add ctl fd idx type addr =>
        cases ctl with
        | false => cases hn
        | true =>
          rw [List.mem_singleton.mp hn, h.fds]
          exact hfits rfl
      | read | toClose | offClose | close | restart => cases hn
    · refine ⟨List.forall_mem_nil _, ?_⟩
      simp only [Tables.look, hfds, hsize]
      exact (h.uses_inside hen).mpr hfits
  · right
    refine ⟨hfits, fun hin => hfits ?_⟩
    have hall := hin.2
    rw [hfds, hsize] at hall
    exact (h.uses_inside hen).mp hall

/-- An accepted descriptor. -/
theorem IndexInv.accept_cases (h : IndexInv lim p s) {fd : Nat} (hknown : fd ∈ s.known)
    {newfd : Int} (hpos : 0 < newfd) {ctl : Bool} {idx : Int} {addr : FdAddr}
    (hstep : s.change (.add ctl newfd.toNat idx .cli addr) = some t) :
    (ctl = true → newfd < s.fds) ∧ IndexInv lim p (t.look [] ((fd : Int) :: t.fdsUsed)) ∨
      ¬ (ctl = true → newfd < s.fds) ∧ ¬ InTables (t.look [] ((fd : Int) :: t.fdsUsed)) := by
  obtain ⟨_, hfds, hsize⟩ := change_uses hstep
  have hnat : (newfd.toNat : Int) = newfd := Int.toNat_of_nonneg (Int.le_of_lt hpos)
  have hlisten := h.known_inside hknown
  have hen : TableLbl.Enabled p s.known (.add ctl newfd.toNat idx .cli addr) := trivial
  cases ctl with
  | false =>
    left
    -- a failed `epoll_ctl` returns before `fds` is looked at
    have hnone : t.fdsUsed = [] := hfds
    refine ⟨fun hctl => absurd hctl Bool.false_ne_true,
      h.change hen (List.forall_mem_nil _) hstep ⟨List.forall_mem_nil _, fun i hi => ?_⟩⟩
    rw [hnone] at hi
    rw [List.mem_singleton.mp hi]
    simp only [Tables.look, hsize]
    exact hlisten
  | true =>
    have hone : t.fdsUsed = [newfd] := by
      rw [hfds]
      exact congrArg (fun i => [i]) hnat
    by_cases hlt : newfd < s.fds
    · -- the entry of the new descriptor lies in the table
      left
      refine ⟨fun _ => hlt, h.change hen (fun n hn => ?_) hstep
        ⟨List.forall_mem_nil _, fun i hi => ?_⟩⟩
      · rw [List.mem_singleton.mp hn, hnat]
        exact hlt
      · rw [hone] at hi
        simp only [Tables.look, hsize]
        rcases List.mem_cons.mp hi with rfl | hi
        · exact hlisten
        · rw [List.mem_singleton.mp hi]
          exact ⟨Int.le_of_lt hpos, hlt⟩
    · -- and here it does not: `add_fd` writes behind the end
      right
      refine ⟨fun hall => hlt (hall rfl), fun hin => hlt ?_⟩
      have hmem : newfd ∈ (fd : Int) :: t.fdsUsed := by
        rw [hone]
        exact List.mem_cons_of_mem _ (List.mem_singleton_self _)
      have hbelow := (hin.2 newfd hmem).2
      simp only [Tables.look, hsize] at hbelow
      exact hbelow

/-- The answers of `epoll_wait`, for all descriptors that it may name. -/
theorem IndexInv.wait_cases (h : IndexInv lim p s) {fds : List Nat}
    (hknown : ∀ fd ∈ fds, fd ∈ s.known) :
    InTables (s.look (upTo (fds.length - 1)) (fds.map fun fd : Nat => (fd : Int))) ↔
      (fds.length : Int) ≤ s.evs := by
  have hroom := h.room
  constructor
  · intro hin
    by_contra hmore
    -- the last event is outside
    have hlast := (hin.1 (fds.length - 1) (mem_upTo.mpr ⟨by omega, Int.le_refl _⟩)).2
    simp only [Tables.look] at hlast
    omega
  · intro hle
    refine ⟨fun k hk => ?_, fun i hi => ?_⟩
    · obtain ⟨h0, hlast⟩ := mem_upTo.mp hk
      refine ⟨h0, ?_⟩
      simp only [Tables.look]
      omega
    · obtain ⟨n, hn, rfl⟩ := List.mem_map.mp hi
      exact h.known_inside (hknown n hn)

/-- **One step**, on either side of its condition. -/
theorem indexStep_cases {l : IndexLbl} (h : IndexInv lim p s)
    (hstep : indexStep lim p l s = some t) :
    IndexFits lim p l s ∧ IndexInv lim p t ∨ ¬ IndexFits lim p l s ∧ ¬ InTables t := by
  cases l with
  | table l =>
    simp only [indexStep, Option.ite_none_right_eq_some] at hstep
    exact h.table_cases hstep.1 hstep.2
  | accept fd newfd ctl addr =>
    simp only [indexStep, Option.ite_none_right_eq_some] at hstep
    rcases hstep with ⟨⟨_, hknown⟩, hstep⟩
    by_cases hpos : 0 < newfd
    · rw [if_pos hpos] at hstep
      obtain ⟨m, hchange, rfl⟩ := Option.map_eq_some_iff.mp hstep
      unfold IndexFits
      rw [← h.fds]
      rcases h.accept_cases hknown hpos hchange with ⟨hfits, hinv⟩ | ⟨hover, hbad⟩
      · exact Or.inl ⟨fun _ => hfits, hinv⟩
      · exact Or.inr ⟨fun hfits => hover (hfits hpos), hbad⟩
    · rw [if_neg hpos] at hstep
      cases hstep
      left
      refine ⟨fun hp => absurd hp hpos, h.look ?_⟩
      exact ⟨List.forall_mem_nil _, List.forall_mem_nil _⟩
  | wait fds =>
    simp only [indexStep, Option.ite_none_right_eq_some] at hstep
    rcases hstep with ⟨⟨hlimit, hknown⟩, hlook⟩
    cases hlook
    have hfits : IndexFits lim p (.wait fds) s ↔ (fds.length : Int) ≤ s.evs := by
      unfold IndexFits
      rw [h.evs]
      cases p with
      | master => exact ⟨fun _ => hlimit, fun _ hp => nomatch hp⟩
      | work => exact ⟨fun hf => hf rfl, fun hf _ => hf⟩
    rw [hfits, ← h.wait_cases hknown]
    by_cases hin : InTables (s.look (upTo (fds.length - 1)) (fds.map fun fd : Nat => (fd : Int)))
    · exact Or.inl ⟨hin, h.look hin⟩
    · exact Or.inr ⟨hin, hin⟩
  | visit n =>
    simp only [indexStep, Option.ite_none_right_eq_some] at hstep
    rcases hstep with ⟨hlisted, hlook⟩
    cases hlook
    have hknown := h.listed n hlisted
    by_cases hfits : IndexFits lim p (.visit n) s
    · left
      refine ⟨hfits, h.look ⟨List.forall_mem_nil _, fun i hi => ?_⟩⟩
      rcases h.fd n hknown with hsame | hgone
      · rw [List.mem_singleton.mp hi, hsame]
        exact h.known_inside hknown
      · exact absurd hgone hfits
    · right
      refine ⟨hfits, fun hin => ?_⟩
      -- `start_work` has left `-1` for the index
      have hgone : (s.ep.fds n).fd = -1 := not_not.mp hfits
      have hpos := (hin.2 _ (List.mem_singleton_self _)).1
      rw [hgone] at hpos
      exact absurd hpos (by decide)
  | use fd =>
    simp only [indexStep, Option.ite_none_right_eq_some] at hstep
    rcases hstep with ⟨hknown, hlook⟩
    cases hlook
    left
    refine ⟨trivial, h.look ⟨List.forall_mem_nil _, fun i hi => ?_⟩⟩
    rw [List.mem_singleton.mp hi]
    exact h.known_inside hknown
  | inherit =>
    simp only [indexStep, Option.ite_none_right_eq_some] at hstep
    rcases hstep with ⟨_, hlook⟩
    cases hlook
    by_cases hfits : IndexFits lim p .inherit s
    · exact Or.inl ⟨hfits, h.look ⟨List.forall_mem_nil _, h.upTo_inside.mpr hfits⟩⟩
    · exact Or.inr ⟨hfits, fun hin => hfits (h.upTo_inside.mp hin.2)⟩

/-- **All indices are inside in every state of a run exactly when** no worker is told of
more events than it has room for, every descriptor that is registered is below
`nr_max_fd`, and no list comes to an entry that `start_work` has closed. -/
theorem in_tables_iff {lim : Limits} {p : Proc} {s : Tables} (h : initTables lim p = some s)
    (ls : List IndexLbl) : Throughout (indexStep lim p) InTables ls s ↔
      Along (indexStep lim p) (IndexFits lim p) ls s := by
  apply throughout_iff_along (IndexInv lim p)
  · exact fun s hs => hs.inside
  · exact fun l s t hs hstep => indexStep_cases hs hstep
  · exact initTables_inv h

/-- The settings of a worker with room for one event. -/
def tenEvents : Limits := { nrMaxEvent := 10, nrMaxFd := 100 }

/-- The pipe and the socket for the group are registered. -/
def twoRegistered : List IndexLbl :=
  [.table (.add true 3 0 .pipe ⟨0, 0⟩), .table (.add true 4 0 .mcast ⟨0, 0⟩)]

/-- One event is inside. -/
theorem in_tables_iff_tenEvents : ∃ s, initTables tenEvents .work = some s ∧
    Throughout (indexStep tenEvents .work) InTables (twoRegistered ++ [.wait [3]]) s := by
  refine ⟨_, rfl, (in_tables_iff rfl _).mpr ?_⟩
  decide +kernel

/-- Two events are not. -/
theorem twoEvents_not_inTables : ¬ ∀ (lim : Limits) (p : Proc) (s t : Tables)
    (ls : List IndexLbl), initTables lim p = some s → exec (indexStep lim p) ls s = some t →
      InTables t := by
  intro hclaim
  have hfacts : ∃ s ∈ initTables tenEvents .work,
      ∃ t ∈ exec (indexStep tenEvents .work) (twoRegistered ++ [.wait [3, 4]]) s,
        t.evs = 1 ∧ 1 ∈ t.evsUsed := by
    refine ⟨_, rfl, _, rfl, ?_⟩
    decide +kernel
  rcases hfacts with ⟨s, hs, t, ht, hroom, hused⟩
  have hlt := ((hclaim tenEvents .work s t _ hs ht).1 1 hused).2
  rw [hroom] at hlt
  exact absurd hlt (by decide)

end SServer.Table
