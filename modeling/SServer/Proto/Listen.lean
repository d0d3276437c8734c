import SServer.Proto.Marks
import SServer.Table.Open

/-!
# SServer.Proto.Listen — the listening descriptors stay

`do_fd_open` on the table of descriptors is a step of the system's master. A run of
the system then tells when the master goes on listening: as long as every `BLK_OPEN`
finds room, and no block of `sq` is about a listening descriptor. The latter are
blocks that no worker sends which reads its `rq` as it was written.

* `Listening.master`: a step of the master, on either side of the condition.
* `listeners_stay_iff`: the result about the system.
* `listeners_stay_of_sane`: where the workers read their `rq` as it was written, only
  `do_fd_open` can close a listener.
* `doFdOpen_simulates`: `do_fd_open` of `SServer.Table.Open` is a step of the master here.
* `accept_closes_new_iff`: both parts together.
* `filled45_closes_listener`: a ring with a block of 45 bytes, and a client that comes.

A listening descriptor that is closed is not opened again before its worker is restarted, and
restarts are not part of these runs.
-/

namespace SServer.Proto

open SServer.Lib SServer.Queue SServer.Worker SServer.Table

/-! ## Runs -/

/-- The descriptors the master has started to listen on are registered as such. -/
def ListenersStay (listeners : Int32 → Option Int32) (s : Sys) : Prop :=
  ∀ fd idx, listeners fd = some idx → s.slots fd = .listen idx

/-- The condition: a `BLK_OPEN` is queued, and the block of `sq` that is handled is not
about a listening descriptor. -/
def SparesListeners : Lbl → Sys → Prop
  | .master (.accept _ _ _ pushed _), _ => pushed = true
  | .master (.mqSend i _ _ _), s =>
    ∀ blk ∈ (s.works i).sq.head?, ∀ idx, s.slots blk.fd ≠ .listen idx
  | _, _ => True

/-- The invariant: these are all that listen. -/
structure Listening (listeners : Int32 → Option Int32) (s : Sys) : Prop where
  stay : ListenersStay listeners s
  only : ∀ fd idx, s.slots fd = .listen idx → listeners fd = some idx

/-- The listeners are open, and no block is about them. -/
theorem listening_init (listeners : Int32 → Option Int32) :
    Listening listeners (sysInit listeners) := by
  constructor
  · intro fd idx hfd
    simp only [sysInit, hfd]
  · intro fd idx hslot
    cases hfd : listeners fd with
    | none =>
      simp only [sysInit, hfd] at hslot
      cases hslot
    | some idx' =>
      simp only [sysInit, hfd] at hslot
      cases hslot
      rfl

variable {listeners : Int32 → Option Int32}

/-- Nothing but the slots matters. -/
theorem Listening.congr {s t : Sys} (h : Listening listeners s) (hslots : t.slots = s.slots) :
    Listening listeners t := by
  constructor
  · intro fd idx hfd
    rw [hslots]
    exact h.stay fd idx hfd
  · intro fd idx hslot
    rw [hslots] at hslot
    exact h.only fd idx hslot

/-- A slot that listens to nobody takes on another use. -/
theorem Listening.update {s t : Sys} (h : Listening listeners s) {fd : Int32} {slot : Slot}
    (hslots : t.slots = Function.update s.slots fd slot) (hold : ∀ idx, s.slots fd ≠ .listen idx)
    (hnew : ∀ idx, slot ≠ .listen idx) : Listening listeners t := by
  constructor
  · intro n idx hn
    have hne : n ≠ fd := by
      intro heq
      rw [heq] at hn
      exact hold idx (h.stay fd idx hn)
    rw [hslots, Function.update_of_ne hne]
    exact h.stay n idx hn
  · intro n idx hslot
    rw [hslots] at hslot
    by_cases heq : n = fd
    · rw [heq, Function.update_self] at hslot
      exact absurd hslot (hnew idx)
    · rw [Function.update_of_ne heq] at hslot
      exact h.only n idx hslot

/-- Closing a descriptor nobody listens on. -/
theorem Listening.doFdClose {s : Sys} (h : Listening listeners s) {fd : Int32} (noted : Bool)
    (hfd : ∀ idx, s.slots fd ≠ .listen idx) : Listening listeners (doFdClose fd noted s) :=
  h.update (doFdClose_slots fd noted s) hfd fun _ => by simp

/-- Closing a listening descriptor ends the listening. -/
theorem Listening.not_stay {s t : Sys} (h : Listening listeners s) {fd idx : Int32}
    (hfd : s.slots fd = .listen idx) (hnull : t.slots fd = .null) :
    ¬ ListenersStay listeners t := by
  intro hstay
  cases hnull.symm.trans (hstay fd idx (h.only fd idx hfd))

/-- **A step of the master**, on either side of the condition. -/
theorem Listening.master {s t : Sys} {l : MasterLbl} (h : Listening listeners s)
    (hstep : MasterStep s l t) :
    SparesListeners (.master l) s ∧ Listening listeners t ∨
      ¬ SparesListeners (.master l) s ∧ ¬ ListenersStay listeners t := by
  cases hstep with
  | @accept lfd a noted _ _ hfree =>
    left
    refine ⟨rfl, h.update ((pushRq_slots _ _ _ _).trans (register_slots s a)) ?_ ?_⟩
    · intro idx hlisten
      rcases hfree with hnull | hfresh
      · cases hlisten.symm.trans hnull
      · cases hlisten.symm.trans hfresh
    · simp
  | @acceptLost lfd a noted hlfd =>
    right
    -- the listener itself is closed for the lost `BLK_OPEN`
    refine ⟨fun hcond => (nomatch hcond), h.not_stay hlfd ?_⟩
    rw [doFdClose_slots, Function.update_self]
  | frame => exact Or.inl ⟨trivial, h.congr (by rw [pushRq_slots]; rfl)⟩
  | frameLost data noted hslot =>
    left
    refine ⟨trivial, (h.congr (t := s.framed _ data) rfl).doFdClose noted fun idx hlisten => ?_⟩
    cases hslot.symm.trans hlisten
  | hangup noted hslot =>
    left
    refine ⟨trivial, h.doFdClose noted fun idx hlisten => ?_⟩
    cases hslot.symm.trans hlisten
  | @mqSend i blk rest taken alive noted hsq =>
    have heff : Listening listeners
        { s with effects := s.effects ++ effectsOf blk taken (s.slots blk.fd) } := h.congr rfl
    by_cases hspared : ∀ idx, s.slots blk.fd ≠ .listen idx
    · left
      constructor
      · intro blk' hblk'
        rw [hsq] at hblk'
        cases hblk'
        exact hspared
      · rcases doBlkSend_cases blk taken alive noted s with ⟨_, heq⟩ | heq
        · rw [heq]
          exact heff.congr rfl
        · rw [heq]
          exact (heff.doFdClose noted hspared).congr rfl
    · right
      constructor
      · intro hcond
        exact hspared (hcond blk (by rw [hsq]; rfl))
      · simp only [not_forall, Classical.not_not] at hspared
        rcases hspared with ⟨idx, hlisten⟩
        refine h.not_stay hlisten ?_
        -- on a listener either kind of block ends in `do_fd_close`
        have hclosed : doBlkSend blk taken alive noted s = Proto.doFdClose blk.fd noted s := by
          unfold doBlkSend doFdSend
          rw [hlisten]
          split
          · rfl
          · rfl
        rw [hclosed]
        exact (congrFun (doFdClose_slots blk.fd noted s) blk.fd).trans (Function.update_self _ _ _)

/-- **The master goes on listening in every state of a run exactly when** each of its
`BLK_OPEN` is queued and it handles no block about a listening descriptor. -/
theorem listeners_stay_iff (listeners : Int32 → Option Int32) (ls : List Lbl) :
    Throughout sysStep (ListenersStay listeners) ls (sysInit listeners) ↔
      Along sysStep SparesListeners ls (sysInit listeners) := by
  apply throughout_iff_along (Listening listeners)
  · exact fun s h => h.stay
  · intro l s t h hstep
    rcases sysStep_cases hstep with ⟨ml, hl, hmaster⟩ | ⟨i, wl, w, evs, hl, _, ht⟩
    · rw [hl]
      exact h.master hmaster
    · rw [hl, ht]
      exact Or.inl ⟨trivial, h.congr rfl⟩
  · exact listening_init listeners

/-! ## Where blocks about listening descriptors come from -/

/-- Every `BLK_OPEN` is queued, and no garbled `rq` is taken for a block about a
listening descriptor. -/
def ReadSanely (listeners : Int32 → Option Int32) : Lbl → Sys → Prop
  | .master (.accept _ _ _ pushed _), _ => pushed = true
  | .work _ (.recvGarbled blk _), _ => listeners blk.fd = none
  | _, _ => True

/-- Nothing that a worker keeps is about a listening descriptor. -/
structure Unlistened (listeners : Int32 → Option Int32) (s : Sys) : Prop where
  listening : Listening listeners s
  marks : ∀ i, Marked (fun fd _ => listeners fd = none) (s.works i)

/-- A block of `sq` is not about a descriptor that is listened on. -/
theorem Unlistened.spares {s : Sys} (h : Unlistened listeners s) {l : Lbl}
    (hl : ReadSanely listeners l s) : SparesListeners l s := by
  cases l with
  | work i l => trivial
  | master l =>
    cases l with
    | accept lfd newfd addr pushed noted => exact hl
    | frame | hangup => trivial
    | mqSend i taken alive noted =>
      intro blk hblk idx hlisten
      have hnone := (h.marks i).sq blk (List.mem_of_mem_head? hblk)
      cases hnone.symm.trans (h.listening.only blk.fd idx hlisten)

/-- A descriptor that is not listened on is told of. -/
theorem Listening.none_of_slot {s : Sys} (h : Listening listeners s) {fd : Int32}
    (hfd : ∀ idx, s.slots fd ≠ .listen idx) : listeners fd = none := by
  cases hcase : listeners fd with
  | none => rfl
  | some idx => exact absurd (h.stay fd idx hcase) (hfd idx)

/-- A sane step makes no block about a listener. -/
theorem Unlistened.step {l : Lbl} {s t : Sys} (h : Unlistened listeners s)
    (hl : ReadSanely listeners l s) (hstep : sysStep l s = some t) : Unlistened listeners t := by
  have hspares := h.spares hl
  rcases sysStep_cases hstep with ⟨ml, heq, hmaster⟩ | ⟨i, wl, w, evs, heq, hwork, ht⟩
  · rw [heq] at hl hspares
    have hlisten : Listening listeners t := by
      rcases h.listening.master hmaster with ⟨_, hgood⟩ | ⟨hno, _⟩
      · exact hgood
      · exact absurd hspares hno
    refine ⟨hlisten, ?_⟩
    -- the master adds blocks about clients only
    have hclose : ∀ {s : Sys} {fd : Int32} (noted : Bool), Listening listeners s →
        (∀ i, Marked (fun fd _ => listeners fd = none) (s.works i)) →
        (∀ idx, s.slots fd ≠ .listen idx) →
        ∀ i, Marked (fun fd _ => listeners fd = none) ((doFdClose fd noted s).works i) := by
      intro s fd noted hs hmarks hfd
      exact doFdClose_marked (P := fun _ fd _ => listeners fd = none) hmarks
        (fun _ => hs.none_of_slot hfd) noted
    cases hmaster with
    | @accept lfd a _ _ _ hfree =>
      refine pushRq_marked (P := fun _ fd _ => listeners fd = none) h.marks a.idx _ ?_ true
      refine h.listening.none_of_slot fun idx hlisten => ?_
      rcases hfree with hnull | hfresh
      · cases hlisten.symm.trans hnull
      · cases hlisten.symm.trans hfresh
    | acceptLost => cases hl
    | @frame fd idx conn data _ hslot =>
      refine pushRq_marked (P := fun _ fd _ => listeners fd = none) h.marks idx _ ?_ true
      refine h.listening.none_of_slot fun idx' hlisten => ?_
      cases hslot.symm.trans hlisten
    | frameLost data noted hslot =>
      refine hclose noted (h.listening.congr rfl) h.marks fun idx hlisten => ?_
      cases hslot.symm.trans hlisten
    | hangup noted hslot =>
      refine hclose noted h.listening h.marks fun idx hlisten => ?_
      cases hslot.symm.trans hlisten
    | @mqSend i blk rest taken alive noted hsq =>
      refine popSq_marked (P := fun _ fd _ => listeners fd = none) ?_ i
      rcases doBlkSend_cases blk taken alive noted s with ⟨_, heff⟩ | heff
      · rw [heff]
        exact h.marks
      · rw [heff]
        refine hclose noted (h.listening.congr rfl) h.marks ?_
        exact hspares blk (by rw [hsq]; rfl)
  · rw [heq] at hl
    rw [ht]
    refine ⟨h.listening.congr rfl, fun j => ?_⟩
    by_cases hj : j = i
    · rw [hj]
      simp only [Function.update_self]
      refine hwork.marked_of (h.marks i) fun blk pushed hblk => ?_
      rw [hblk] at hl
      exact hl
    · simp only [Function.update_of_ne hj]
      exact h.marks j

/-- **With sound queues only `do_fd_open` can close a listening descriptor**: in a run
whose workers do not take a garbled `rq` for a block about one, each of them stays as
long as every `BLK_OPEN` is queued. -/
theorem listeners_stay_of_sane (listeners : Int32 → Option Int32) {ls : List Lbl} {s : Sys}
    (hsane : Along sysStep (ReadSanely listeners) ls (sysInit listeners))
    (hrun : exec sysStep ls (sysInit listeners) = some s) : ListenersStay listeners s := by
  have hinv : Unlistened listeners s := by
    refine exec_invariant (Unlistened listeners) (fun l s t hs hl => hs.step hl) ?_ hsane
      hrun
    exact ⟨listening_init listeners, fun _ => marked_init⟩
  exact hinv.listening.stay

/-! ## The table and the slots -/

/-- The entry of the descriptor `n` is what the slot says. -/
def Shows (n : Nat) (pfd : FdWrap) : Slot → Prop
  | .null => pfd.type = .null
  | .fresh => pfd = zeroWrap
  | .listen idx => pfd.type = .listen ∧ pfd.fd = n ∧ pfd.idx = idx.toInt
  | .cli idx _ => pfd.type = .cli ∧ pfd.fd = n ∧ pfd.idx = idx.toInt

/-- The numbers a descriptor can have. -/
def IsFd (n : Nat) : Prop := n < 2147483648

/-- A table of descriptors shows the slots. -/
def ShowsTable (ep : EpInfo) (slots : Int32 → Slot) : Prop :=
  ∀ n, IsFd n → Shows n (ep.fds n) (slots (Int32.ofNat n))

/-- Descriptors are apart as ints as they are as numbers. -/
theorem ofNat_injective {m n : Nat} (hm : IsFd m) (hn : IsFd n)
    (h : Int32.ofNat m = Int32.ofNat n) : m = n := by
  have hint := congrArg Int32.toInt h
  unfold IsFd at hm hn
  rw [Int32.toInt_ofNat_of_lt hm, Int32.toInt_ofNat_of_lt hn] at hint
  omega

/-- One entry and its slot are changed together. -/
theorem ShowsTable.update {ep ep' : EpInfo} {slots : Int32 → Slot} (h : ShowsTable ep slots)
    {fd : Nat} (hfd : IsFd fd) {slot : Slot} (hother : ∀ n, n ≠ fd → ep'.fds n = ep.fds n)
    (hself : Shows fd (ep'.fds fd) slot) :
    ShowsTable ep' (Function.update slots (Int32.ofNat fd) slot) := by
  intro n hn
  by_cases heq : n = fd
  · rw [heq, Function.update_self]
    exact hself
  · rw [hother n heq, Function.update_of_ne fun hof => heq (ofNat_injective hn hfd hof)]
    exact h n hn

/-- A descriptor that is not registered is free. -/
theorem ShowsTable.free {ep : EpInfo} {slots : Int32 → Slot} (h : ShowsTable ep slots) {n : Nat}
    (hn : IsFd n) (hfree : ¬ Registered ep n) :
    slots (Int32.ofNat n) = .null ∨ slots (Int32.ofNat n) = .fresh := by
  have hshows := h n hn
  cases hslot : slots (Int32.ofNat n) with
  | null => exact Or.inl rfl
  | fresh => exact Or.inr rfl
  | listen idx | cli idx c =>
    rw [hslot] at hshows
    rcases hshows with ⟨htype, hfd, _⟩
    exact absurd ⟨by rw [htype]; simp, hfd⟩ hfree

/-- **`do_fd_open` is the master's step**: where it registers a connection, the slots
change as the table does, the `BLK_OPEN` queued or not. -/
theorem doFdOpen_simulates {m m' : Mast} {s : Sys} {fd newfd : Nat} {idx : Int32} {addr : FdAddr}
    {r : Int} (hshows : ShowsTable m.ep s.slots) (hfd : IsFd fd) (hnewfd : IsFd newfd)
    (hpos : 0 < newfd) (hlisten : s.slots (Int32.ofNat fd) = .listen idx)
    (hfree : ¬ Registered m.ep newfd)
    (hopen : Table.doFdOpen fd newfd addr true m = some (r, m')) :
    ∃ pushed s', masterStep (.accept (Int32.ofNat fd) (Int32.ofNat newfd)
        (bytes addr.encode fdAddrLen) pushed false) s = some s' ∧ ShowsTable m'.ep s'.slots := by
  have hentry := hshows fd hfd
  rw [hlisten] at hentry
  rcases hentry with ⟨htype, hself, hidx⟩
  let ep := addFdinfo newfd (m.ep.fds fd).idx .cli addr m.ep
  have hfds : ep.fds = Function.update m.ep.fds newfd
      (fdinfo newfd (m.ep.fds fd).idx .cli addr) := (addFdinfo_frame _ _ _ _ _).1
  let conn := s.conns.length
  -- behind the registration
  have hnew : ShowsTable ep (Function.update s.slots (Int32.ofNat newfd) (.cli idx conn)) := by
    refine hshows.update hnewfd (fun n hn => ?_) ?_
    · rw [hfds, Function.update_of_ne hn]
    · rw [hfds, Function.update_self]
      exact ⟨rfl, rfl, hidx⟩
  have hguard : 0 < Int32.ofNat newfd ∧ (s.slots (Int32.ofNat newfd) = .null ∨
      s.slots (Int32.ofNat newfd) = .fresh) ∧
      (bytes addr.encode fdAddrLen).length = addrLen := by
    refine ⟨?_, hshows.free hnewfd hfree, ?_⟩
    · rw [Int32.lt_iff_toInt_lt, Int32.toInt_ofNat_of_lt hnewfd]
      simp only [Int32.toInt_zero]
      omega
    · simp [addrLen]
  have hpushed : ∃ q r', mqPush (m.rq (ep.fds newfd).idx) (openBlk (ep.fds newfd).idx newfd)
      addr.encode = some (r', q) ∧ (if r' = -1 then
        Table.doFdClose fd { m with ep := ep, rq := Function.update m.rq (ep.fds newfd).idx q }
      else some { m with ep := ep, rq := Function.update m.rq (ep.fds newfd).idx q }) =
        some m' := by
    unfold Table.doFdOpen addFdinfoToEpinfo at hopen
    rw [if_pos (by omega)] at hopen
    simp only [if_true, Int.toNat_natCast] at hopen
    rw [if_neg (by decide)] at hopen
    rcases Option.map_eq_some_iff.mp hopen with ⟨m₁, htell, heq⟩
    cases heq
    unfold tellOpen at htell
    rcases Option.bind_eq_some_iff.mp htell with ⟨⟨r', q⟩, hpush, hrest⟩
    exact ⟨q, r', hpush, hrest⟩
  rcases hpushed with ⟨q, r', _, hrest⟩
  by_cases hr : r' = -1
  · -- it is the listening descriptor that goes
    rw [if_pos hr] at hrest
    refine ⟨false, ?_⟩
    simp only [masterStep, hlisten, if_pos hguard]
    refine ⟨_, rfl, ?_⟩
    rw [doFdClose_slots]
    unfold Table.doFdClose at hrest
    have hne : fd ≠ newfd := by
      intro heq
      rw [← heq] at hfree
      exact hfree ⟨by rw [htype]; simp, hself⟩
    have hold : ep.fds fd = m.ep.fds fd := by
      rw [hfds, Function.update_of_ne hne]
    rw [if_neg (by simp only [hold, htype]; simp)] at hrest
    rcases Option.bind_eq_some_iff.mp hrest with ⟨⟨_, q'⟩, _, hclose⟩
    rcases Option.map_eq_some_iff.mp hclose with ⟨ep', hep', heq⟩
    rw [← heq]
    have hclosed := closeSlot_closed hep'
    refine hnew.update hfd hclosed.other ?_
    rcases hclosed.self with ⟨flag, hnull⟩
    rw [hnull]
    rfl
  · rw [if_neg hr] at hrest
    refine ⟨true, ?_⟩
    simp only [masterStep, hlisten, if_pos hguard]
    refine ⟨_, rfl, ?_⟩
    rw [pushRq_slots, ← Option.some.inj hrest]
    exact hnew

/-! ## One accept, and whole runs -/

/-- **Who is closed for a refused `BLK_OPEN`, and when the listeners stay.** From any
sound state, the new connection alone goes unless it was registered and finds no room;
and the master goes on listening through exactly the runs that spare the listeners. -/
theorem accept_closes_new_iff (m : Mast) (fd : Nat) (newfd : Int) (addr : FdAddr) (ctl : Bool)
    (listeners : Int32 → Option Int32) (ls : List Lbl) :
    (m.Sound → (m.ep.fds fd).type = .listen → Registered m.ep fd →
      ¬ Registered m.ep newfd.toNat →
      (OpenAtomic fd newfd addr ctl m ↔
        newfd ≤ 0 ∨ ctl = false ∨
          HasRoom (m.rq (m.ep.fds fd).idx) (blkHeadLen + fdAddrLen))) ∧
    (Throughout sysStep (ListenersStay listeners) ls (sysInit listeners) ↔
      Along sysStep SparesListeners ls (sysInit listeners)) := by
  constructor
  · intro hm hlisten hreg hfree
    exact openAtomic_iff hm newfd addr ctl hlisten hreg hfree
  · exact listeners_stay_iff listeners ls

/-- A master that listens on descriptor 3 for worker 0; `q` is that worker's `rq`. -/
def listens3 (q : MemQueue) : Mast :=
  { ep := addFdinfo 3 0 .listen ⟨0, 0⟩ epInit, rq := fun _ => q, closed := [] }

/-- It is sound, and descriptor 5 is free. -/
theorem listens3_sound {q : MemQueue} {bs : List Blk} (h : Rep q bs) :
    (listens3 q).Sound ∧ ((listens3 q).ep.fds 3).type = .listen ∧
      Registered (listens3 q).ep 3 ∧ ¬ Registered (listens3 q).ep 5 := by
  have hfree : ¬ Registered epInit 3 := by
    intro hreg
    cases hreg.2
  refine ⟨⟨addFdinfo_keeps epInit_filed hfree _ _ _, fun _ => ⟨bs, h⟩⟩, rfl, ?_, ?_⟩
  · exact ⟨nofun, rfl⟩
  · intro hreg
    cases hreg.2

/-- An empty ring has room for its `BLK_OPEN`. -/
theorem accept_closes_new_iff_listens3 : OpenAtomic 3 5 ⟨0, 0⟩ true (listens3 (mqInit 64)) := by
  rcases listens3_sound (rep_init (show memHeadLen < 64 by decide)) with
    ⟨hsound, hlisten, hreg, hfree⟩
  have hiff := (accept_closes_new_iff _ 3 5 ⟨0, 0⟩ true (fun _ => none) []).1 hsound hlisten hreg
    hfree
  apply hiff.mpr
  right
  right
  show HasRoom (mqInit 64) (blkHeadLen + fdAddrLen)
  decide

/-- With a block of 45 bytes in `rq` there is no room, and the listener goes. -/
theorem filled45_closes_listener :
    ¬ ∀ (m : Mast) (fd : Nat) (newfd : Int) (addr : FdAddr) (ctl : Bool), m.Sound →
      (m.ep.fds fd).type = .listen → Registered m.ep fd → ¬ Registered m.ep newfd.toNat →
      OpenAtomic fd newfd addr ctl m := by
  intro hclaim
  have hb : (raceBlk 45).Pushable := ⟨by decide, by decide⟩
  rcases mqPush_spec (rep_init (show memHeadLen < 64 by decide)) hb nullData with
    ⟨r, q, hpush, _, hres⟩
  -- where the push leaves the indices
  have hfull : ∀ x ∈ mqPush (mqInit 64) (raceBlk 45) nullData,
      x.1 = 0 ∧ ¬ HasRoom x.2 (blkHeadLen + fdAddrLen) := by
    decide +kernel
  rcases hfull (r, q) hpush with ⟨hr, hnone⟩
  have hrep : Rep q ([] ++ [(raceBlk 45).withData nullData]) := by
    rcases hres with ⟨_, hrep⟩ | ⟨hr', _⟩
    · exact hrep
    · cases hr.symm.trans hr'
  rcases listens3_sound hrep with ⟨hsound, hlisten, hreg, hfree⟩
  have hatomic := hclaim _ 3 5 ⟨0, 0⟩ true hsound hlisten hreg hfree
  have hiff := openAtomic_iff hsound 5 ⟨0, 0⟩ true hlisten hreg hfree
  rcases hiff.mp hatomic with hle | hoff | hroom
  · cases hle
  · cases hoff
  · exact hnone hroom

end SServer.Proto
