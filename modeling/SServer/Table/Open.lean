import SServer.Queue.Drained
import SServer.Table.Lists
import SServer.Worker.Recv

/-!
# SServer.Table.Open — `do_fd_open`

The master accepts a connection, registers it and tells its worker by a `BLK_OPEN`.
When that block finds no room in `rq`, `do_fd_open` closes a descriptor: the one it
was called with, which is the listening one.

* `doFdOpen_refused`: a `BLK_OPEN` that finds no room: the listening descriptor is closed.
* `openAtomic_iff`: the new connection is the one that is closed exactly when it need not be.

One call of `do_fd_open` is looked at. The loop around it is `SServer.Master.Accept`, and its
place in the system is `SServer.Proto.Listen`.
-/

namespace SServer.Table

open SServer.Lib SServer.Net SServer.Queue SServer.Worker

/-- The master as `do_fd_open` and `do_fd_close` see it: its table, the `rq` of each
worker, and the descriptors it has closed. -/
structure Mast where
  ep : EpInfo
  rq : Int → MemQueue
  closed : List Nat

/-- The bytes of an `fd_addr_t`, packed. -/
def FdAddr.encode (addr : FdAddr) : Mem := fun i =>
  if i < 4 then storeLe32 addr.ip.toInt32 i
  else if i < 5 then addr.port.toUInt8
  else (addr.port >>> 8).toUInt8

/-- The `BLK_CLOSE` of `do_fd_close`. -/
def closeBlk (idx : Int) (fd : Nat) : MemBlock :=
  { id := Int32.ofInt idx, fd := Int32.ofInt fd, type := MemBlockType.blkClose.code
    len := Int32.ofInt blkHeadLen }

/-- The `BLK_OPEN` of `do_fd_open`. -/
def openBlk (idx : Int) (fd : Nat) : MemBlock :=
  { id := Int32.ofInt idx, fd := Int32.ofInt fd, type := MemBlockType.blkOpen.code
    len := Int32.ofInt (blkHeadLen + fdAddrLen) }

/-- `do_fd_close`, with an `ismaster` of `1` or `2`. That the worker could not be told
is logged. -/
def doFdClose (fd : Nat) (m : Mast) : Option Mast :=
  if (m.ep.fds fd).type = .null then some m
  else
    let idx := (m.ep.fds fd).idx
    (mqPush (m.rq idx) (closeBlk idx fd) nullData).bind fun (_, q) =>
      (closeSlot fd m.ep).map fun ep =>
        { ep := ep, rq := Function.update m.rq idx q, closed := m.closed ++ [fd] }

/-- `do_fd_open` behind `add_fdinfo_to_epinfo`: the new descriptor is `newfd`. -/
def tellOpen (fd newfd : Nat) (addr : FdAddr) (m : Mast) : Option Mast :=
  let idx := (m.ep.fds newfd).idx
  (mqPush (m.rq idx) (openBlk idx newfd) addr.encode).bind fun (r, q) =>
    let m := { m with rq := Function.update m.rq idx q }
    if r = -1 then doFdClose fd m else some m

/-- `do_fd_open`; `newfd` is what `accept` returns, `ctl` the success of `epoll_ctl`. -/
def doFdOpen (fd : Nat) (newfd : Int) (addr : FdAddr) (ctl : Bool) (m : Mast) :
    Option (Int × Mast) :=
  if 0 < newfd then
    let (ret, ep) := addFdinfoToEpinfo ctl newfd.toNat (m.ep.fds fd).idx .cli addr m.ep
    if ret = -1 then some (0, { m with ep := ep })
    else (tellOpen fd newfd.toNat addr { m with ep := ep }).map fun m => (newfd, m)
  else some (newfd, m)

/-! ## What is to hold -/

/-- Exactly the descriptor `n` has been closed and is registered no more. -/
structure OnlyClosed (n : Nat) (m m' : Mast) : Prop where
  closed : m'.closed = m.closed ++ [n]
  gone : (m'.ep.fds n).type = .null
  others : ∀ k, k ≠ n → m'.ep.fds k = m.ep.fds k

/-- The `BLK_OPEN` of a connection for worker `idx` finds no room. -/
def OpenRefused (idx : Int) (n : Nat) (addr : FdAddr) (m : Mast) : Prop :=
  ∃ q, mqPush (m.rq idx) (openBlk idx n) addr.encode = some (-1, q)

/-- A new connection whose worker cannot be told is the one that is closed. -/
def OpenAtomic (fd : Nat) (newfd : Int) (addr : FdAddr) (ctl : Bool) (m : Mast) : Prop :=
  ∀ r m', doFdOpen fd newfd addr ctl m = some (r, m') → 0 < newfd → ctl = true →
    OpenRefused (m.ep.fds fd).idx newfd.toNat addr m → OnlyClosed newfd.toNat m m'

/-- The states of a master: its lists are in order and its queues are rings. -/
structure Mast.Sound (m : Mast) : Prop where
  filed : FiledInv m.ep
  rings : ∀ k, ∃ bs, Rep (m.rq k) bs

/-! ## The calls -/

/-- A `BLK_OPEN` may be pushed. -/
theorem openBlk_pushable (idx : Int) (fd : Nat) : (openBlk idx fd).Pushable := by
  constructor
  · simp only [openBlk, blkHeadLen, fdAddrLen]
    decide
  · simp [openBlk, MemBlockType.code]

/-- So may a `BLK_CLOSE`. -/
theorem closeBlk_pushable (idx : Int) (fd : Nat) : (closeBlk idx fd).Pushable := by
  constructor
  · simp only [closeBlk, blkHeadLen]
    decide
  · simp [closeBlk, MemBlockType.code]

/-- The header and an address. -/
theorem openBlk_len (idx : Int) (fd : Nat) :
    (openBlk idx fd).len.toInt = blkHeadLen + fdAddrLen := by
  simp only [openBlk, blkHeadLen, fdAddrLen]
  decide

/-- A block is refused exactly when there is no room for it. -/
theorem refused_iff {q : MemQueue} {bs : List Blk} (h : Rep q bs) {b : MemBlock}
    (hb : b.Pushable) (data : Mem) :
    (∃ q', mqPush q b data = some (-1, q')) ↔ ¬ HasRoom q b.len.toInt := by
  have hzero := mqPush_zero_iff h.bounds.2.2.1 hb.1 data
  rcases mqPush_spec h hb data with ⟨r, q', hpush, _, hres⟩
  rw [← hzero]
  constructor
  · rintro ⟨q₁, h₁⟩ ⟨q₂, h₂⟩
    rw [h₁] at h₂
    cases h₂
  · intro hno
    rcases hres with ⟨hr, _⟩ | ⟨hr, _⟩
    · rw [hr] at hpush
      exact absurd ⟨q', hpush⟩ hno
    · rw [hr] at hpush
      exact ⟨q', hpush⟩

/-- **`do_fd_close`** on an entry in use closes that descriptor. -/
theorem doFdClose_closes {m : Mast} (h : m.Sound) {fd : Nat}
    (htype : (m.ep.fds fd).type ≠ .null) :
    ∃ m', doFdClose fd m = some m' ∧ m'.closed = m.closed ++ [fd] ∧ Closed fd m.ep m'.ep := by
  unfold doFdClose
  rw [if_neg htype]
  rcases h.rings (m.ep.fds fd).idx with ⟨bs, hrep⟩
  rcases mqPush_spec hrep (closeBlk_pushable (m.ep.fds fd).idx fd) nullData with ⟨r, q, hpush, _⟩
  rcases closeFd_keeps h.filed fd with ⟨ep, hep, _⟩
  unfold closeFd at hep
  rw [if_neg htype] at hep
  simp only [hpush, Option.bind_some, hep]
  exact ⟨_, rfl, rfl, closeSlot_closed hep⟩

/-- **A refused `BLK_OPEN`** closes the listening descriptor. -/
theorem doFdOpen_refused {m : Mast} (h : m.Sound) {fd : Nat} {newfd : Int} {addr : FdAddr}
    (hlisten : (m.ep.fds fd).type = .listen) (hreg : Registered m.ep fd)
    (hfree : ¬ Registered m.ep newfd.toNat) (hpos : 0 < newfd)
    (hrefused : OpenRefused (m.ep.fds fd).idx newfd.toNat addr m) :
    ∃ m', doFdOpen fd newfd addr true m = some (newfd, m') ∧
      m'.closed = m.closed ++ [fd] ∧ (m'.ep.fds fd).type = .null ∧
      (m'.ep.fds newfd.toNat).type = .cli := by
  have hne : fd ≠ newfd.toNat := fun heq => hfree (heq ▸ hreg)
  rcases hrefused with ⟨q, hpush⟩
  let ep := addFdinfo newfd.toNat (m.ep.fds fd).idx .cli addr m.ep
  have hfds : ep.fds = Function.update m.ep.fds newfd.toNat
      (fdinfo newfd.toNat (m.ep.fds fd).idx .cli addr) := (addFdinfo_frame _ _ _ _ _).1
  have hnew : ep.fds newfd.toNat = fdinfo newfd.toNat (m.ep.fds fd).idx .cli addr := by
    rw [hfds, Function.update_self]
  have hold : ep.fds fd = m.ep.fds fd := by
    rw [hfds, Function.update_of_ne hne]
  -- the master once the block has been refused
  let m₁ : Mast := { m with ep := ep, rq := Function.update m.rq (m.ep.fds fd).idx q }
  have hsound : m₁.Sound := by
    refine ⟨addFdinfo_keeps h.filed hfree _ _ _, fun k => ?_⟩
    by_cases hk : k = (m.ep.fds fd).idx
    · rcases h.rings (m.ep.fds fd).idx with ⟨bs, hrep⟩
      rcases mqPush_spec hrep (openBlk_pushable _ _) addr.encode with ⟨r, q', hpush', _, hres⟩
      rw [hpush] at hpush'
      cases hpush'
      rcases hres with ⟨hr, _⟩ | ⟨_, hrep'⟩
      · cases hr
      · refine ⟨bs, ?_⟩
        simp only [m₁, hk, Function.update_self]
        exact hrep'
    · simp only [m₁, Function.update_of_ne hk]
      exact h.rings k
  have htype : (m₁.ep.fds fd).type ≠ .null := by
    have htype' : (m₁.ep.fds fd).type = .listen := (congrArg FdWrap.type hold).trans hlisten
    rw [htype']
    simp
  rcases doFdClose_closes hsound htype with ⟨m', hclose, hclosed, htable⟩
  refine ⟨m', ?_, hclosed, ?_, ?_⟩
  · have htell : tellOpen fd newfd.toNat addr { m with ep := ep } = some m' := by
      unfold tellOpen
      simp only [hnew, fdinfo, hpush, Option.bind_some, if_true]
      exact hclose
    unfold doFdOpen addFdinfoToEpinfo
    rw [if_pos hpos]
    simp only [if_true]
    rw [if_neg (by decide), htell]
    rfl
  · rcases htable.self with ⟨flag, hself⟩
    rw [hself]
  · rw [htable.other _ (Ne.symm hne)]
    exact congrArg FdWrap.type hnew

/-- **The new connection is the one that is closed exactly when it need not be**: it
was not accepted, not registered, or there is room for its `BLK_OPEN`. -/
theorem openAtomic_iff {m : Mast} (h : m.Sound) {fd : Nat} (newfd : Int) (addr : FdAddr)
    (ctl : Bool) (hlisten : (m.ep.fds fd).type = .listen) (hreg : Registered m.ep fd)
    (hfree : ¬ Registered m.ep newfd.toNat) :
    OpenAtomic fd newfd addr ctl m ↔
      newfd ≤ 0 ∨ ctl = false ∨
        HasRoom (m.rq (m.ep.fds fd).idx) (blkHeadLen + fdAddrLen) := by
  have hroom : OpenRefused (m.ep.fds fd).idx newfd.toNat addr m ↔
      ¬ HasRoom (m.rq (m.ep.fds fd).idx) (blkHeadLen + fdAddrLen) := by
    rcases h.rings (m.ep.fds fd).idx with ⟨bs, hrep⟩
    have hiff := refused_iff hrep (openBlk_pushable (m.ep.fds fd).idx newfd.toNat) addr.encode
    rw [openBlk_len] at hiff
    exact hiff
  constructor
  · intro hatomic
    by_contra hno
    simp only [not_or, Int.not_le, Bool.not_eq_false] at hno
    rcases hno with ⟨hpos, hctl, hfull⟩
    have hrefused := hroom.mpr hfull
    rcases doFdOpen_refused h hlisten hreg hfree hpos hrefused with ⟨m', hopen, _, hnull, _⟩
    rw [hctl] at hatomic
    have hsame := (hatomic newfd m' hopen hpos rfl hrefused).others fd
      fun heq => hfree (heq ▸ hreg)
    rw [hsame, hlisten] at hnull
    cases hnull
  · intro hcond r m' _ hpos hctl hrefused
    rcases hcond with hle | hoff | hfits
    · omega
    · rw [hoff] at hctl
      cases hctl
    · exact absurd hfits (hroom.mp hrefused)

end SServer.Table
