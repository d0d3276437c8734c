import SServer.Lib.ListHead
import SServer.Net.Recv
import SServer.Net.Send

/-!
# SServer.Table.EpInfo — the table of descriptors

`epinfo` with the functions that change it: `add_fdinfo_to_epinfo`, the readlist
and the closelist, the part of `do_fd_close` that is about the table, and the loop
of `start_work`. An entry is found by its descriptor's number; whether it is in
use is told by its type, and the entries of a fresh table are zero, which is the
type of a listener.

* `closeSlot_closed`: what the part of `do_fd_close` about the table leaves: a null entry,
  unlinked from both lists, and a new `maxfd` if it was the greatest.
* `addFdinfo_frame`: what registering an entry does to the table.
* `closeDowned_frame`: what the loop of `start_work` does to the table: `do_fd_close` is not
  among it.
* `searchMaxfd_spec`: where the search for a new `maxfd` stops.

An entry carries its two links and its buffers. `epoll_ctl` is an answer, and what the kernel
has registered is looked at in `SServer.Table.Restart` and `SServer.Net.Socket`.
-/

namespace SServer.Table

open SServer.Lib SServer.Net

/-! ## Data -/

/-- `enum fd_type`. -/
inductive FdType where
  | listen
  | connect
  | mcast
  | pipe
  | cli
  | svr
  | null
deriving DecidableEq, Repr

/-- `fd_addr_t`. -/
structure FdAddr where
  ip : UInt32
  port : UInt16
deriving DecidableEq

/-- `enum CACHE_TYPE`. -/
inductive CacheType where
  | read
  | close
deriving DecidableEq

/-- The bits of `flag`. -/
def CacheType.code : CacheType → UInt8
  | .read => 1
  | .close => 2

/-- `fd_wrap_t`, without its node. -/
structure FdWrap where
  type : FdType
  fd : Int
  idx : Int
  flag : UInt8
  buff : FdBuff
  addr : FdAddr

/-- An entry as the sending functions see it. -/
def sendConn (pfd : FdWrap) : SendConn :=
  { buff := pfd.buff, registered := decide (pfd.type ≠ .null), epollout := false, wire := [] }

/-- An entry as the reading functions see it. -/
def recvConn (pfd : FdWrap) : RecvConn :=
  { buff := pfd.buff, readlist := decide (pfd.flag &&& CacheType.read.code ≠ 0) }

/-- The nodes that links stand in: the two heads, and the `node` of each entry. -/
inductive Node where
  | readlist
  | closelist
  | slot (fd : Nat)
deriving DecidableEq

/-- `epoll_info_t`: `epinfo.fds` by number, and the links of all its nodes. -/
structure EpInfo where
  fds : Nat → FdWrap
  maxfd : Int
  seq : UInt32
  count : UInt32
  links : ListHead Node

/-- A zeroed entry. -/
def zeroWrap : FdWrap :=
  { type := .listen, fd := 0, idx := 0, flag := 0, buff := emptyBuff, addr := ⟨0, 0⟩ }

/-- `epinfo` behind `master_init`: zeroes, and two empty lists. -/
def epInit : EpInfo :=
  { fds := fun _ => zeroWrap
    maxfd := 0
    seq := 0
    count := 0
    links := initListHead .closelist (initListHead .readlist ⟨fun _ => none, fun _ => none⟩) }

/-- An entry is changed. -/
def EpInfo.setFd (ep : EpInfo) (fd : Nat) (pfd : FdWrap) : EpInfo :=
  { ep with fds := Function.update ep.fds fd pfd }

/-! ## The two lists -/

/-- The node of an entry is linked otherwise, and its flag is new. -/
def EpInfo.relink (ep : EpInfo) (fd : Nat) (flag : UInt8) (links : ListHead Node) : EpInfo :=
  { ep.setFd fd { ep.fds fd with flag := flag } with links := links }

/-- `do_add_to_readlist`. -/
def doAddToReadlist (fd : Nat) (ep : EpInfo) : Option EpInfo :=
  if (ep.fds fd).flag = 0 then
    (listAddTail (.slot fd) .readlist ep.links).map
      (ep.relink fd ((ep.fds fd).flag ||| CacheType.read.code))
  else some ep

/-- `do_del_from_readlist`. -/
def doDelFromReadlist (fd : Nat) (ep : EpInfo) : Option EpInfo :=
  if (ep.fds fd).flag &&& CacheType.read.code ≠ 0 then
    (listDelInit (.slot fd) ep.links).map (ep.relink fd 0)
  else some ep

/-- `do_add_to_closelist`. -/
def doAddToCloselist (fd : Nat) (ep : EpInfo) : Option EpInfo :=
  (doDelFromReadlist fd ep).bind fun ep =>
    if (ep.fds fd).flag &&& CacheType.close.code = 0 then
      (listAddTail (.slot fd) .closelist ep.links).map
        (ep.relink fd ((ep.fds fd).flag ||| CacheType.close.code))
    else some ep

/-- `do_del_from_closelist`. -/
def doDelFromCloselist (fd : Nat) (ep : EpInfo) : Option EpInfo :=
  if (ep.fds fd).flag &&& CacheType.close.code ≠ 0 then
    (listDelInit (.slot fd) ep.links).map (ep.relink fd 0)
  else some ep

/-! ## Registering and closing -/

/-- The entry that `add_fdinfo_to_epinfo` writes. -/
def fdinfo (fd : Nat) (idx : Int) (type : FdType) (addr : FdAddr) : FdWrap :=
  { type := type, fd := fd, idx := idx, flag := 0, buff := emptyBuff, addr := addr }

/-- The end of `add_fdinfo_to_epinfo`. -/
def raiseMaxfd (fd : Nat) (ep : EpInfo) : EpInfo :=
  if ep.maxfd < fd then { ep with maxfd := fd } else ep

/-- `add_fdinfo_to_epinfo` behind a successful `epoll_ctl`. -/
def addFdinfo (fd : Nat) (idx : Int) (type : FdType) (addr : FdAddr) (ep : EpInfo) : EpInfo :=
  raiseMaxfd fd { ep.setFd fd (fdinfo fd idx type addr) with seq := ep.seq + 1 }

/-- `add_fdinfo_to_epinfo`; `ctl` is the success of `epoll_ctl`. -/
def addFdinfoToEpinfo (ctl : Bool) (fd : Nat) (idx : Int) (type : FdType) (addr : FdAddr)
    (ep : EpInfo) : Int × EpInfo :=
  if ctl then (0, addFdinfo fd idx type addr ep) else (-1, ep)

/-- The search of `do_fd_close` for a new `maxfd`, downwards from below `fd`. -/
def searchMaxfd (fds : Nat → FdWrap) : Nat → Int
  | 0 => -1
  | i + 1 => if (fds i).type = .null then i else searchMaxfd fds i

/-- `free_buff`, the null type, and the count, with the `close` between them. -/
def freeSlot (fd : Nat) (ep : EpInfo) : EpInfo :=
  { ep.setFd fd { ep.fds fd with buff := emptyBuff, type := .null } with count := ep.count - 1 }

/-- The end of `do_fd_close`: another `maxfd`. -/
def replaceMaxfd (fd : Nat) (ep : EpInfo) : EpInfo :=
  if ep.maxfd = fd then { ep with maxfd := searchMaxfd ep.fds fd } else ep

/-- `do_fd_close` from `do_del_from_readlist` on. -/
def closeSlot (fd : Nat) (ep : EpInfo) : Option EpInfo :=
  ((doDelFromReadlist fd ep).bind (doDelFromCloselist fd)).map fun ep =>
    replaceMaxfd fd (freeSlot fd ep)

/-- `do_fd_close`, as far as the table goes. -/
def closeFd (fd : Nat) (ep : EpInfo) : Option EpInfo :=
  if (ep.fds fd).type = .null then some ep else closeSlot fd ep

/-- What `start_work` asks of an entry that it closes. -/
def FdWrap.Downed (pfd : FdWrap) (idx : Int) : Prop := pfd.idx = idx ∧ 0 < pfd.fd

instance (pfd : FdWrap) (idx : Int) : Decidable (pfd.Downed idx) :=
  inferInstanceAs (Decidable (_ ∧ _))

/-- The loop of `start_work` up to entry `n`, and the numbers it closes. -/
def closeDowned (idx : Int) : Nat → EpInfo → EpInfo × List Int
  | 0, ep => (ep, [])
  | n + 1, ep =>
    let (ep, closed) := closeDowned idx n ep
    let pfd := ep.fds n
    if pfd.Downed idx then (ep.setFd n { pfd with fd := -1 }, closed ++ [pfd.fd])
    else (ep, closed)

/-- The loop of `start_work`, `for (i = 0; i <= epinfo.maxfd; ++i)`. -/
def closeDownedFds (idx : Int) (ep : EpInfo) : EpInfo × List Int :=
  closeDowned idx (ep.maxfd + 1).toNat ep

/-! ## What the operations leave alone -/

/-- The entry that is set. -/
@[simp] theorem setFd_self (ep : EpInfo) (fd : Nat) (pfd : FdWrap) :
    (ep.setFd fd pfd).fds fd = pfd := Function.update_self _ _ _

/-- The others stay. -/
theorem setFd_other (ep : EpInfo) {fd n : Nat} (hne : n ≠ fd) (pfd : FdWrap) :
    (ep.setFd fd pfd).fds n = ep.fds n := Function.update_of_ne hne _ _

/-- All that adding an entry to a list or taking it out does to the entries and to
the counters: the flag of that entry is new. -/
structure Reflagged (fd : Nat) (ep ep' : EpInfo) : Prop where
  self : ∃ flag, ep'.fds fd = { ep.fds fd with flag := flag }
  other : ∀ n, n ≠ fd → ep'.fds n = ep.fds n
  maxfd : ep'.maxfd = ep.maxfd
  seq : ep'.seq = ep.seq
  count : ep'.count = ep.count

/-- Nothing is done. -/
theorem Reflagged.refl (fd : Nat) (ep : EpInfo) : Reflagged fd ep ep :=
  ⟨⟨(ep.fds fd).flag, rfl⟩, fun _ _ => rfl, rfl, rfl, rfl⟩

/-- One thing after the other is done to the entry. -/
theorem Reflagged.trans {fd : Nat} {ep ep' ep'' : EpInfo} (h : Reflagged fd ep ep')
    (h' : Reflagged fd ep' ep'') : Reflagged fd ep ep'' := by
  rcases h.self with ⟨flag, hself⟩
  rcases h'.self with ⟨flag', hself'⟩
  refine ⟨⟨flag', ?_⟩, fun n hn => (h'.other n hn).trans (h.other n hn),
    h'.maxfd.trans h.maxfd, h'.seq.trans h.seq, h'.count.trans h.count⟩
  rw [hself', hself]

/-- Other links and another flag. -/
theorem relink_reflags (ep : EpInfo) (fd : Nat) (flag : UInt8) (links : ListHead Node) :
    Reflagged fd ep (ep.relink fd flag links) :=
  ⟨⟨flag, setFd_self ep fd _⟩, fun _ hn => setFd_other ep hn _, rfl, rfl, rfl⟩

/-- Every list operation is a change of links with a new flag, or nothing. -/
theorem reflagged_of_map {fd : Nat} {ep ep' : EpInfo} {c : Prop} [Decidable c]
    {links : Option (ListHead Node)} {flag : UInt8}
    (h : (if c then links.map (ep.relink fd flag) else some ep) = some ep') :
    Reflagged fd ep ep' := by
  by_cases hc : c
  · rw [if_pos hc, Option.map_eq_some_iff] at h
    rcases h with ⟨links, _, heq⟩
    rw [← heq]
    exact relink_reflags ep fd flag links
  · rw [if_neg hc] at h
    rw [← Option.some.inj h]
    exact Reflagged.refl fd ep

/-- To put an entry on the readlist changes its flag and the links. -/
theorem doAddToReadlist_reflags {fd : Nat} {ep ep' : EpInfo}
    (h : doAddToReadlist fd ep = some ep') : Reflagged fd ep ep' := reflagged_of_map h

/-- So does to take it off. -/
theorem doDelFromReadlist_reflags {fd : Nat} {ep ep' : EpInfo}
    (h : doDelFromReadlist fd ep = some ep') : Reflagged fd ep ep' := reflagged_of_map h

/-- So does to take it off the closelist. -/
theorem doDelFromCloselist_reflags {fd : Nat} {ep ep' : EpInfo}
    (h : doDelFromCloselist fd ep = some ep') : Reflagged fd ep ep' := reflagged_of_map h

/-- The search finds the greatest closed entry below `fd`, or `-1`. -/
theorem searchMaxfd_spec (fds : Nat → FdWrap) : ∀ fd : Nat,
    searchMaxfd fds fd = -1 ∨ ∃ i < fd, searchMaxfd fds fd = i ∧ (fds i).type = .null := by
  intro fd
  induction fd with
  | zero => exact Or.inl rfl
  | succ i ih =>
    unfold searchMaxfd
    by_cases hnull : (fds i).type = .null
    · right
      exact ⟨i, Nat.lt_succ_self i, if_pos hnull, hnull⟩
    · rw [if_neg hnull]
      rcases ih with hnone | ⟨j, hj, heq, htype⟩
      · exact Or.inl hnone
      · exact Or.inr ⟨j, Nat.lt_succ_of_lt hj, heq, htype⟩

/-- **What closing an entry does to the table**: the entry is null, and `maxfd`, if
it was that entry, is a closed one below or `-1`. -/
structure Closed (fd : Nat) (ep ep' : EpInfo) : Prop where
  self : ∃ flag, ep'.fds fd =
    { ep.fds fd with flag := flag, buff := emptyBuff, type := .null }
  other : ∀ n, n ≠ fd → ep'.fds n = ep.fds n
  maxfd : ep.maxfd ≠ fd → ep'.maxfd = ep.maxfd
  below : ep.maxfd = fd → ep'.maxfd = -1 ∨ ∃ i < fd, ep'.maxfd = i ∧ (ep.fds i).type = .null
  seq : ep'.seq = ep.seq
  count : ep'.count = ep.count - 1

/-- The entries are those of the freed table. -/
theorem replaceMaxfd_frame (fd : Nat) (ep : EpInfo) :
    (replaceMaxfd fd ep).fds = ep.fds ∧ (replaceMaxfd fd ep).seq = ep.seq ∧
      (replaceMaxfd fd ep).count = ep.count ∧ (replaceMaxfd fd ep).links = ep.links := by
  unfold replaceMaxfd
  by_cases hmax : ep.maxfd = fd
  · rw [if_pos hmax]
    exact ⟨rfl, rfl, rfl, rfl⟩
  · rw [if_neg hmax]
    exact ⟨rfl, rfl, rfl, rfl⟩

/-- **What `do_fd_close` leaves of the table**, when the links hold. -/
theorem closeSlot_closed {fd : Nat} {ep ep' : EpInfo} (h : closeSlot fd ep = some ep') :
    Closed fd ep ep' := by
  unfold closeSlot at h
  rcases Option.map_eq_some_iff.mp h with ⟨m, hm, heq⟩
  rcases Option.bind_eq_some_iff.mp hm with ⟨m', hm', hclose⟩
  have hre := (doDelFromReadlist_reflags hm').trans (doDelFromCloselist_reflags hclose)
  rcases hre.self with ⟨flag, hself⟩
  rcases replaceMaxfd_frame fd (freeSlot fd m) with ⟨hfds, hseq, hcount, _⟩
  have hother : ∀ n, n ≠ fd → (freeSlot fd m).fds n = ep.fds n :=
    fun n hn => (setFd_other m hn _).trans (hre.other n hn)
  rw [← heq]
  constructor
  · refine ⟨flag, ?_⟩
    rw [hfds]
    refine (setFd_self m fd _).trans ?_
    rw [hself]
  · intro n hn
    rw [hfds]
    exact hother n hn
  · intro hne
    rw [← hre.maxfd] at hne ⊢
    have hkept : replaceMaxfd fd (freeSlot fd m) = freeSlot fd m := if_neg hne
    rw [hkept]
    rfl
  · intro hat
    rw [← hre.maxfd] at hat
    have hfound : (replaceMaxfd fd (freeSlot fd m)).maxfd = searchMaxfd (freeSlot fd m).fds fd :=
      congrArg EpInfo.maxfd (if_pos hat)
    rw [hfound]
    rcases searchMaxfd_spec (freeSlot fd m).fds fd with hnone | ⟨i, hi, hi', htype⟩
    · exact Or.inl hnone
    · rw [hother i (Nat.ne_of_lt hi)] at htype
      exact Or.inr ⟨i, hi, hi', htype⟩
  · exact hseq.trans hre.seq
  · exact hcount.trans (congrArg (· - 1) hre.count)

/-- **What registering an entry does to the table.** -/
theorem addFdinfo_frame (fd : Nat) (idx : Int) (type : FdType) (addr : FdAddr) (ep : EpInfo) :
    (addFdinfo fd idx type addr ep).fds
        = Function.update ep.fds fd (fdinfo fd idx type addr) ∧
      (addFdinfo fd idx type addr ep).maxfd = max ep.maxfd fd ∧
      (addFdinfo fd idx type addr ep).links = ep.links ∧
      (addFdinfo fd idx type addr ep).count = ep.count := by
  have hraise : ∀ ep : EpInfo, (raiseMaxfd fd ep).fds = ep.fds ∧
      (raiseMaxfd fd ep).maxfd = max ep.maxfd fd ∧ (raiseMaxfd fd ep).links = ep.links ∧
      (raiseMaxfd fd ep).count = ep.count := by
    intro ep
    unfold raiseMaxfd
    by_cases hlt : ep.maxfd < fd
    · rw [if_pos hlt]
      exact ⟨rfl, by simp only; omega, rfl, rfl⟩
    · rw [if_neg hlt]
      exact ⟨rfl, by omega, rfl, rfl⟩
  exact hraise _

/-- **What the loop of `start_work` does to the table.** -/
theorem closeDowned_frame (idx : Int) (ep : EpInfo) : ∀ k : Nat,
    (∀ n, (closeDowned idx k ep).1.fds n =
      if n < k ∧ (ep.fds n).Downed idx then { ep.fds n with fd := -1 } else ep.fds n) ∧
    (closeDowned idx k ep).1.maxfd = ep.maxfd ∧ (closeDowned idx k ep).1.links = ep.links := by
  intro k
  induction k with
  | zero =>
    refine ⟨fun n => ?_, rfl, rfl⟩
    rw [if_neg (fun h => absurd h.1 (Nat.not_lt_zero n))]
    rfl
  | succ k ih =>
    rcases ih with ⟨hfds, hmax, hlinks⟩
    -- the entry at hand is still as it was
    have hnow : (closeDowned idx k ep).1.fds k = ep.fds k := by
      rw [hfds k]
      exact if_neg fun h => absurd h.1 (Nat.lt_irrefl k)
    unfold closeDowned
    simp only
    rw [hnow]
    by_cases hdown : (ep.fds k).Downed idx
    · rw [if_pos hdown]
      refine ⟨fun n => ?_, hmax, hlinks⟩
      by_cases hn : n = k
      · rw [hn, if_pos ⟨Nat.lt_succ_self k, hdown⟩]
        exact setFd_self _ k _
      · simp only
        rw [setFd_other _ hn, hfds n]
        have hlt : n < k + 1 ↔ n < k := by omega
        simp only [hlt]
    · rw [if_neg hdown]
      refine ⟨fun n => ?_, hmax, hlinks⟩
      rw [hfds n]
      by_cases hn : n = k
      · rw [hn, if_neg (fun h => hdown h.2), if_neg (fun h => hdown h.2)]
      · have hlt : n < k + 1 ↔ n < k := by omega
        simp only [hlt]

/-- An entry that no list has is taken out of none. -/
theorem doDel_unlisted {fd : Nat} {ep : EpInfo} (hflag : (ep.fds fd).flag = 0) :
    (doDelFromReadlist fd ep).bind (doDelFromCloselist fd) = some ep := by
  have hread : doDelFromReadlist fd ep = some ep := by
    unfold doDelFromReadlist
    rw [hflag]
    rfl
  rw [hread, Option.bind_some]
  unfold doDelFromCloselist
  rw [hflag]
  rfl

/-- So it is closed without a look at the links. -/
theorem closeSlot_unlisted {fd : Nat} {ep : EpInfo} (hflag : (ep.fds fd).flag = 0) :
    closeSlot fd ep = some (replaceMaxfd fd (freeSlot fd ep)) := by
  unfold closeSlot
  rw [doDel_unlisted hflag]
  rfl

end SServer.Table
