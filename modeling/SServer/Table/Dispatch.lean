import SServer.Net.Wakeup
import SServer.Table.Lists

/-!
# SServer.Table.Dispatch — who comes back for a full buffer

A read that has filled the buffer puts its descriptor on the readlist: there may be more
in the kernel, and no event will tell. `master_dispatch` goes through the readlist in
each round, before it waits. `work_dispatch` does so once, before its loop, when the list
is still empty.

The loops are modelled entry by entry and event by event, and the list is gone through by
its links. The results: the master reads again from every descriptor on the readlist
before it waits once more, as long as the lists are in order; a worker does exactly when
`epoll_wait` itself names the descriptor again.

* `FiledInv.readlist`: what is on the readlist is what the flags say.
* `turn_turns`: a turn of either list's loop: behind the readlist nothing is due.
* `masterStep_serves`, `workStep_serves`: one step of each process, on either side of its
  condition.
* `readlist_served`: the result for both.
* `waitTwice_not_served`: a worker that waits for the third time and has not read again, and a
  master whose readlist is broken.

The read handlers are parameters: what they do to the table and to `due` is all that counts.
What a handler reads is in `SServer.Net.ReadPath`.
-/

namespace SServer.Table

open SServer.Lib SServer.Net SServer.Queue

variable {Q W : Type}

/-! ## The loop -/

/-- An answer of `epoll_wait`: a descriptor and its events. -/
structure Event where
  fd : Nat
  mask : Mask

/-- Where a process stands: at an entry of a list, with the next one saved; behind both
lists, and at the end of a worker's round; or among the events. -/
inductive LoopPc where
  | walk (k : CacheType) (pos tmp : Node)
  | ready
  | events (evs : List Event)

/-- A process: its table, and what its handlers work on. `due` are the descriptors that
were on the readlist when it last called `epoll_wait` and since have neither been read
from nor closed, and `untold` those of them that `epoll_wait` has not named. -/
structure LoopSt (W : Type) where
  ep : EpInfo
  pc : LoopPc
  w : W
  due : Nat → Bool
  untold : Nat → Bool

/-- In front of the loop. -/
def loopInit (w : W) : LoopSt W :=
  { ep := epInit
    pc := .walk .close .closelist .closelist
    w := w
    due := fun _ => false
    untold := fun _ => false }

/-- `list_for_each_entry_safe` comes to `pos`, and saves the entry behind it. -/
def walkFrom (k : CacheType) (pos : Node) (ep : EpInfo) : Option LoopPc :=
  (ep.links.next pos).map (.walk k pos)

/-- It begins. -/
def walkBegin (k : CacheType) (ep : EpInfo) : Option LoopPc :=
  (ep.links.next k.head).bind fun pos => walkFrom k pos ep

/-- An entry gets other buffers. -/
def EpInfo.setBuff (ep : EpInfo) (fd : Nat) (buff : FdBuff) : EpInfo :=
  ep.setFd fd { ep.fds fd with buff := buff }

/-- `do_fd_close`. -/
def LoopSt.shut (fd : Nat) (s : LoopSt W) : Option (LoopSt W) :=
  if (s.ep.fds fd).type = .null then some s
  else
    (closeSlot fd s.ep).map fun ep =>
      { s with
        ep := ep
        due := Function.update s.due fd false
        untold := Function.update s.untold fd false }

/-- The read handler is called, and `do_fd_close` when it returns `-1`. Nothing comes from
a descriptor that has been closed, so its entry is left where it is. -/
def LoopSt.readFd (read : ReadFn W) (fd : Nat) (mapped : Bool) (outs : List RecvRes)
    (s : LoopSt W) : Option (LoopSt W) :=
  match read (Int32.ofNat fd) (Int32.ofInt (s.ep.fds fd).idx) mapped outs
      (recvConn (s.ep.fds fd)) s.w with
  | none => none
  | some (r, c, w) =>
    let s := { s with w := w, due := Function.update s.due fd false }
    if r = -1 then s.shut fd
    else
      let ep := s.ep.setBuff fd c.buff
      if Registered ep fd then
        (if c.readlist then doAddToReadlist fd ep else doDelFromReadlist fd ep).map fun ep =>
          { s with ep := ep }
      else some { s with ep := ep }

/-- What the sending functions leave of an entry. -/
def LoopSt.keepSent (fd : Nat) (c : SendConn) (s : LoopSt W) : Option (LoopSt W) :=
  if c.registered = true then some { s with ep := s.ep.setBuff fd c.buff } else s.shut fd

/-- The body of `handle_closelist` and of `handle_readlist`, for the entry `n`. What the
first writes is gone with the buffer. No listener is on the readlist. -/
def LoopSt.visit (read : ReadFn W) (k : CacheType) (n : Nat) (mapped : Bool)
    (outs : List RecvRes) (s : LoopSt W) : Option (LoopSt W) :=
  let pfd := s.ep.fds n
  if pfd.fd < 0 then none
  else
    match k with
    | .close => s.shut pfd.fd.toNat
    | .read =>
      if pfd.type = .listen then some s else s.readFd read pfd.fd.toNat mapped outs

/-- One turn of either list's loop, or its end. -/
def LoopSt.turn (read : ReadFn W) (k : CacheType) (pos tmp : Node) (mapped : Bool)
    (outs : List RecvRes) (s : LoopSt W) : Option (LoopSt W) :=
  if pos = k.head then
    match k with
    | .close => (walkBegin .read s.ep).map fun pc => { s with pc := pc }
    | .read => some { s with pc := .ready }
  else
    match pos with
    | .slot n =>
      (s.visit read k n mapped outs).bind fun s =>
        (walkFrom k tmp s.ep).map fun pc => { s with pc := pc }
    | _ => none

/-- The descriptors that the readlist's flag says are on it. -/
def OnReadlist (ep : EpInfo) (n : Nat) : Prop := (ep.fds n).flag = CacheType.read.code

instance (ep : EpInfo) (n : Nat) : Decidable (OnReadlist ep n) :=
  inferInstanceAs (Decidable (_ = _))

/-- There is an event with `EPOLLIN` for `n`. -/
def Told (evs : List Event) (n : Nat) : Prop := ∃ ev ∈ evs, ev.fd = n ∧ ev.mask.epollin = true

instance (evs : List Event) (n : Nat) : Decidable (Told evs n) :=
  inferInstanceAs (Decidable (∃ ev ∈ evs, _))

/-- `epoll_wait` is called, and answers with `evs`. -/
def LoopSt.wait (evs : List Event) (s : LoopSt W) : LoopSt W :=
  { s with
    pc := .events evs
    due := fun n => decide (OnReadlist s.ep n)
    untold := fun n => decide (OnReadlist s.ep n ∧ ¬ Told evs n) }

/-- The kind of a process's connections. -/
def connKind (ismaster : Bool) : FdType := if ismaster then .cli else .svr

/-- An event is handled. What a listener's makes is opened in steps of its own. -/
def LoopSt.event (ismaster : Bool) (read : ReadFn W) (ev : Event) (mapped : Bool)
    (recvs : List RecvRes) (outs : List SendRes) (s : LoopSt W) : Option (LoopSt W) :=
  if ev.mask.epollin = true then
    if (s.ep.fds ev.fd).type = connKind ismaster then
      s.readFd read ev.fd mapped recvs
    else some s
  else if ev.mask.epollout = true then
    match epollOut (sendConn (s.ep.fds ev.fd)) outs with
    | .ok (c, []) => s.keepSent ev.fd c
    | _ => none
  else some s

/-! ## Steps -/

/-- A turn of a list's loop; the call of `epoll_wait`, with its answer; an event is
handled; the round ends. Besides, a descriptor is registered, sent to, or closed, by the
handlers and in `handle_mq_send`, and a worker of the master is restarted. -/
inductive LoopLbl where
  | turn (mapped : Bool) (recvs : List RecvRes)
  | wait (evs : List Event)
  | event (mapped : Bool) (recvs : List RecvRes) (outs : List SendRes)
  | next
  | add (ctl : Bool) (fd : Nat) (idx : Int) (type : FdType) (addr : FdAddr)
  | send (fd : Nat) (alloc : Option Mem) (data : Mem) (len : Int) (outs : List SendRes)
  | close (fd : Nat)
  | restart (idx : Int)

/-- Outside of the lists' loops. -/
def LoopPc.outside : LoopPc → Bool
  | .walk _ _ _ => false
  | _ => true

/-- One step of `master_dispatch`, or of `work_dispatch`. Signals come at any time. -/
def loopStep (ismaster : Bool) (read : ReadFn W) (max : Int) (l : LoopLbl) (s : LoopSt W) :
    Option (LoopSt W) :=
  match l with
  | .turn mapped recvs =>
    match s.pc with
    | .walk k pos tmp => s.turn read k pos tmp mapped recvs
    | _ => none
  | .wait evs =>
    match s.pc with
    | .ready => some (s.wait evs)
    | _ => none
  | .event mapped recvs outs =>
    match s.pc with
    | .events (ev :: evs) =>
      LoopSt.event ismaster read ev mapped recvs outs { s with pc := .events evs }
    | _ => none
  | .next =>
    match s.pc with
    | .events [] =>
      if ismaster then (walkBegin .close s.ep).map fun pc => { s with pc := pc }
      else some { s with pc := .ready }
    | _ => none
  | .add ctl fd idx type addr =>
    if ¬ Registered s.ep fd then
      some { s with ep := (addFdinfoToEpinfo ctl fd idx type addr s.ep).2 }
    else none
  | .send fd alloc data len outs =>
    if s.pc.outside = true ∧ (s.ep.fds fd).type ≠ .null then
      match doFdSend max alloc (sendConn (s.ep.fds fd)) data len outs with
      | .ok (_, c, []) => s.keepSent fd c
      | _ => none
    else none
  | .close fd => if s.pc.outside = true then s.shut fd else none
  | .restart idx =>
    if ismaster then
      let (ep, closed) := closeDownedFds idx s.ep
      some
        { s with
          ep := ep
          due := fun n => s.due n && decide ((n : Int) ∉ closed)
          untold := fun n => s.untold n && decide ((n : Int) ∉ closed) }
    else none

/-! ## What is to hold -/

/-- When `epoll_wait` is called, every descriptor that was on the readlist when it was
called before has been read from, or closed. -/
def Served (l : LoopLbl) (s : LoopSt W) : Prop :=
  match l with
  | .wait _ => ∀ n, s.due n = false
  | _ => True

/-- The master's condition: that of the lists. -/
def ListsKept (l : LoopLbl) (s : LoopSt W) : Prop :=
  match l with
  | .restart idx => NoneWaits (.restart idx) s.ep
  | _ => True

/-- The worker's condition: each of them was named by `epoll_wait`, or closed. -/
def AllTold (l : LoopLbl) (s : LoopSt W) : Prop :=
  match l with
  | .wait _ => ∀ n, s.untold n = false
  | _ => True

/-! ## The readlist in order -/

/-- The readlist holds the entries `xs`. -/
def Readlist (ep : EpInfo) (xs : List Nat) : Prop := IsList ep.links .readlist (xs.map .slot)

/-- **What is on the readlist** is what the flags say. -/
theorem FiledInv.readlist {ep : EpInfo} (h : FiledInv ep) :
    ∃ xs, Readlist ep xs ∧ ∀ n, n ∈ xs ↔ OnReadlist ep n := by
  rcases h.filed with ⟨xs, hxs, _⟩
  exact ⟨xs .read, hxs.ring .read, hxs.flag .read⟩

/-- Who is on the readlist is who has the flag. -/
theorem FiledInv.mem_readlist {ep : EpInfo} (h : FiledInv ep) {xs : List Nat}
    (hxs : Readlist ep xs) (n : Nat) : n ∈ xs ↔ OnReadlist ep n := by
  rcases h.readlist with ⟨ys, hys, hmem⟩
  have heq : xs = ys := by
    apply List.map_injective_iff.mpr slot_injective
    exact hxs.unique hys
  rw [heq]
  exact hmem n

/-- Nobody is on it twice. -/
theorem Readlist.nodup {ep : EpInfo} {xs : List Nat} (h : Readlist ep xs) : xs.Nodup :=
  List.Nodup.of_map _ (List.nodup_cons.mp h.2).2

/-- What is on the readlist is in use. -/
theorem OnReadlist.flagged {ep : EpInfo} {n : Nat} (h : OnReadlist ep n) :
    (ep.fds n).flag ≠ 0 := by
  unfold OnReadlist at h
  rw [h]
  decide

/-- `do_del_from_readlist` takes an entry out. -/
theorem Readlist.del {ep ep' : EpInfo} (h : FiledInv ep) {xs : List Nat} (hxs : Readlist ep xs)
    {fd : Nat} (hdel : doDelFromReadlist fd ep = some ep') : Readlist ep' (xs.erase fd) := by
  unfold doDelFromReadlist at hdel
  by_cases hbit : (ep.fds fd).flag &&& CacheType.read.code ≠ 0
  · have hmem : fd ∈ xs := (h.mem_readlist hxs fd).mpr ((h.bit fd .read).mp hbit)
    rw [if_pos hbit] at hdel
    rcases Option.map_eq_some_iff.mp hdel with ⟨links, hlinks, heq⟩
    rcases listDelInit_spec hxs (List.mem_map.mpr ⟨fd, hmem, rfl⟩) with ⟨l, hl, hlist, _⟩
    cases hlinks.symm.trans hl
    rw [← heq]
    show IsList links _ ((xs.erase fd).map .slot)
    rw [List.map_erase slot_injective]
    exact hlist
  · have hmem : fd ∉ xs := by
      intro hin
      exact hbit ((h.bit fd .read).mpr ((h.mem_readlist hxs fd).mp hin))
    rw [if_neg hbit] at hdel
    cases hdel
    rw [List.erase_of_not_mem hmem]
    exact hxs

/-- So does `do_fd_close`, and it leaves no flag. -/
theorem closeSlot_lists {ep ep' : EpInfo} (h : FiledInv ep) {fd : Nat}
    (hclose : closeSlot fd ep = some ep') :
    (ep'.fds fd).flag = 0 ∧
      ∀ xs, Readlist ep xs → fd ∈ xs → Readlist ep' (xs.erase fd) := by
  rcases h.delIf .read fd with ⟨m, hm, hinv, hflag⟩
  have hdel : doDelFromReadlist fd ep = some m := hm
  rcases doDel_both h fd with ⟨m', hm', _, hzero⟩
  unfold closeSlot at hclose
  rw [hm', Option.map_some] at hclose
  cases hclose
  constructor
  · rw [(replaceMaxfd_frame fd _).1]
    refine (congrArg FdWrap.flag (setFd_self m' fd _)).trans hzero
  · intro xs hxs hmem
    have hlist : Readlist m (xs.erase fd) := hxs.del h hdel
    -- the closelist does not have it
    have hon : (ep.fds fd).flag = CacheType.read.code := (h.mem_readlist hxs fd).mp hmem
    have hread : (m.fds fd).flag = 0 := by
      rw [hflag, if_pos hon]
    have hsame : doDelFromCloselist fd m = some m := by
      unfold doDelFromCloselist
      rw [hread]
      rfl
    rw [hdel, Option.bind_some, hsame] at hm'
    cases hm'
    unfold Readlist
    rw [(replaceMaxfd_frame fd _).2.2.2]
    exact hlist

/-- Other buffers leave the lists alone. -/
theorem setBuff_keeps {ep : EpInfo} (h : FiledInv ep) (fd : Nat) (buff : FdBuff) :
    FiledInv (ep.setBuff fd buff) := by
  have hfds : ∀ n, ((ep.setBuff fd buff).fds n).flag = (ep.fds n).flag ∧
      (Registered ep n → Registered (ep.setBuff fd buff) n) := by
    intro n
    unfold EpInfo.setBuff Registered
    by_cases hn : n = fd
    · rw [hn, setFd_self]
      exact ⟨rfl, fun hreg => hreg⟩
    · rw [setFd_other ep hn]
      exact ⟨rfl, fun hreg => hreg⟩
  exact h.congr rfl (fun n => (hfds n).1) fun n _ hreg => (hfds n).2 hreg

/-! ## What touches one descriptor -/

/-- All that an operation on `fd` does to the process, whose lists hold descriptors of one
kind; `reads` when it may call the read handler. -/
structure Touched (kind : FdType) (reads : Prop) (fd : Nat) (s t : LoopSt W) : Prop where
  pc : t.pc = s.pc
  lists : FiledInv t.ep
  other : ∀ n, n ≠ fd →
    t.ep.fds n = s.ep.fds n ∧ t.due n = s.due n ∧ t.untold n = s.untold n
  kinds : (t.ep.fds fd).flag ≠ 0 → (t.ep.fds fd).type = kind
  cleared : t.due fd = s.due fd ∧ t.untold fd = s.untold fd ∧
      (t.ep.fds fd).flag = (s.ep.fds fd).flag ∨
    t.due fd = false ∧ (t.untold fd = false ∨ reads ∧ t.untold fd = s.untold fd)
  walked : ∀ xs, Readlist s.ep xs → fd ∈ xs → Readlist t.ep xs ∨ Readlist t.ep (xs.erase fd)

/-- A weaker reason to have read. -/
theorem Touched.mono {kind : FdType} {reads reads' : Prop} {fd : Nat} {s t : LoopSt W}
    (h : Touched kind reads fd s t) (himp : reads → reads') : Touched kind reads' fd s t := by
  refine ⟨h.pc, h.lists, h.other, h.kinds, ?_, h.walked⟩
  rcases h.cleared with hsame | ⟨hdue, hclear | ⟨hreads, huntold⟩⟩
  · exact Or.inl hsame
  · exact Or.inr ⟨hdue, Or.inl hclear⟩
  · exact Or.inr ⟨hdue, Or.inr ⟨himp hreads, huntold⟩⟩

/-- What the lists of a process hold. -/
structure ListsInv (kind : FdType) (ep : EpInfo) : Prop where
  filed : FiledInv ep
  kinds : ∀ n, (ep.fds n).flag ≠ 0 → (ep.fds n).type = kind

/-- `do_fd_close` touches its own entry only. -/
theorem shut_touched {kind : FdType} {fd : Nat} {s t : LoopSt W} (hs : ListsInv kind s.ep)
    (h : s.shut fd = some t) : Touched kind False fd s t := by
  unfold LoopSt.shut at h
  split at h
  · cases h
    exact ⟨rfl, hs.filed, fun _ _ => ⟨rfl, rfl, rfl⟩, hs.kinds fd, Or.inl ⟨rfl, rfl, rfl⟩,
      fun _ hxs _ => Or.inl hxs⟩
  · next hnull =>
    rcases Option.map_eq_some_iff.mp h with ⟨ep, hclose, heq⟩
    cases heq
    rcases closeSlot_lists hs.filed hclose with ⟨hflag, hlist⟩
    constructor
    · rfl
    · rcases closeFd_keeps hs.filed fd with ⟨ep', hep', hinv⟩
      unfold closeFd at hep'
      rw [if_neg hnull, hclose] at hep'
      cases hep'
      exact hinv
    · intro n hn
      refine ⟨(closeSlot_closed hclose).other n hn, ?_, ?_⟩
      · exact Function.update_of_ne hn _ _
      · exact Function.update_of_ne hn _ _
    · intro hno
      exact absurd hflag hno
    · right
      exact ⟨Function.update_self _ _ _, Or.inl (Function.update_self _ _ _)⟩
    · intro xs hxs hmem
      exact Or.inr (hlist xs hxs hmem)

/-- So does a call that has sent. -/
theorem keepSent_touched {kind : FdType} {fd : Nat} {c : SendConn} {s t : LoopSt W}
    (hs : ListsInv kind s.ep) (h : s.keepSent fd c = some t) : Touched kind False fd s t := by
  unfold LoopSt.keepSent at h
  split at h
  · cases h
    have hself : (s.ep.setBuff fd c.buff).fds fd = { s.ep.fds fd with buff := c.buff } :=
      setFd_self s.ep fd _
    constructor
    · rfl
    · exact setBuff_keeps hs.filed fd c.buff
    · intro n hn
      exact ⟨setFd_other s.ep hn _, rfl, rfl⟩
    · simp only [hself]
      exact hs.kinds fd
    · left
      simp only [hself]
      exact ⟨trivial, trivial, trivial⟩
    · intro xs hxs _
      exact Or.inl hxs
  · exact shut_touched hs h

/-- A list operation on an entry that other buffers have been written to. -/
theorem relist_touched {kind : FdType} {fd : Nat} {s : LoopSt W} {ep : EpInfo} (w : W)
    (buff : FdBuff) (hkind : (s.ep.fds fd).type = kind)
    (hinv : FiledInv ep) (hre : Reflagged fd (s.ep.setBuff fd buff) ep)
    (hlist : ∀ xs, Readlist s.ep xs → fd ∈ xs → Readlist ep xs ∨ Readlist ep (xs.erase fd)) :
    Touched kind True fd s
      { s with ep := ep, w := w, due := Function.update s.due fd false } := by
  have hself : (s.ep.setBuff fd buff).fds fd = { s.ep.fds fd with buff := buff } :=
    setFd_self s.ep fd _
  constructor
  · rfl
  · exact hinv
  · intro n hn
    exact ⟨(hre.other n hn).trans (setFd_other s.ep hn _), Function.update_of_ne hn _ _, rfl⟩
  · intro _
    rcases hre.self with ⟨flag, hflag⟩
    rw [hflag, hself]
    exact hkind
  · right
    exact ⟨Function.update_self _ _ _, Or.inr ⟨trivial, rfl⟩⟩
  · exact hlist

/-- **The read handler** of a process takes its descriptor off `due`. -/
theorem readFd_touched {kind : FdType} {read : ReadFn W} {fd : Nat} {mapped : Bool}
    {outs : List RecvRes} {s t : LoopSt W} (hs : ListsInv kind s.ep)
    (hkind : (s.ep.fds fd).type = kind) (h : s.readFd read fd mapped outs = some t) :
    Touched kind True fd s t ∧ t.due fd = false := by
  unfold LoopSt.readFd at h
  split at h
  · cases h
  next r c w _ =>
  simp only at h
  split at h
  · -- the descriptor is closed
    have htouched := shut_touched (s := { s with w := w, due := Function.update s.due fd false })
      hs h
    have hdue : t.due fd = false := by
      rcases htouched.cleared with ⟨hdue, _⟩ | ⟨hdue, _⟩
      · exact hdue.trans (Function.update_self _ _ _)
      · exact hdue
    refine ⟨⟨htouched.pc, htouched.lists, fun n hn => ?_, htouched.kinds, Or.inr ⟨hdue, ?_⟩,
      htouched.walked⟩, hdue⟩
    · rcases htouched.other n hn with ⟨hfds, hsame, huntold⟩
      exact ⟨hfds, hsame.trans (Function.update_of_ne hn _ _), huntold⟩
    · rcases htouched.cleared with ⟨_, huntold, _⟩ | ⟨_, huntold | ⟨hno, _⟩⟩
      · exact Or.inr ⟨trivial, huntold⟩
      · exact Or.inl huntold
      · exact hno.elim
  have hbuff := setBuff_keeps hs.filed fd c.buff
  have hdue : Function.update s.due fd false fd = false := Function.update_self _ _ _
  split at h
  swap
  · cases h
    exact ⟨relist_touched w c.buff hkind hbuff (Reflagged.refl fd _) fun _ hxs _ => Or.inl hxs,
      hdue⟩
  next hreg =>
  rcases Option.map_eq_some_iff.mp h with ⟨ep, hop, heq⟩
  cases heq
  refine ⟨?_, hdue⟩
  split at hop
  · -- the buffer is full
    rcases doAddToReadlist_keeps hbuff hreg with ⟨ep', hep', hinv⟩
    cases hep'.symm.trans hop
    refine relist_touched w c.buff hkind hinv (doAddToReadlist_reflags hop) ?_
    intro xs hxs hmem
    left
    -- an entry that has a flag is not added again
    have hxs' : Readlist (s.ep.setBuff fd c.buff) xs := hxs
    have hflag : ((s.ep.setBuff fd c.buff).fds fd).flag ≠ 0 :=
      OnReadlist.flagged ((hbuff.mem_readlist hxs' fd).mp hmem)
    unfold doAddToReadlist at hop
    rw [if_neg hflag] at hop
    cases hop
    exact hxs
  · rcases doDelFromReadlist_keeps hbuff fd with ⟨ep', hep', hinv⟩
    cases hep'.symm.trans hop
    refine relist_touched w c.buff hkind hinv (doDelFromReadlist_reflags hop) ?_
    intro xs hxs _
    have hxs' : Readlist (s.ep.setBuff fd c.buff) xs := hxs
    exact Or.inr (hxs'.del hbuff hop)

/-! ## The invariant -/

/-- The loop of `handle_readlist` stands at the first of the entries `rest`, and has saved
the one behind it. -/
def StandsAt (pos tmp : Node) (rest : List Nat) : Prop :=
  pos = (rest.map .slot).headD .readlist ∧
    ∀ n more, rest = n :: more → tmp = (more.map .slot).headD .readlist

/-- The invariant of both processes: the lists are in order, what is due is on the
readlist, and `handle_readlist` has it still before it. -/
structure LoopInv (kind : FdType) (s : LoopSt W) : Prop where
  lists : ListsInv kind s.ep
  due : ∀ n, s.due n = true → OnReadlist s.ep n
  walks : ∀ pos tmp, s.pc = .walk .read pos tmp → ∃ past rest,
    Readlist s.ep (past ++ rest) ∧ StandsAt pos tmp rest ∧ ∀ n, s.due n = true → n ∈ rest

/-- Who touches one entry so keeps the lists in order. -/
theorem Touched.lists_inv {kind : FdType} {reads : Prop} {fd : Nat} {s t : LoopSt W}
    (hs : ListsInv kind s.ep) (h : Touched kind reads fd s t) : ListsInv kind t.ep := by
  refine ⟨h.lists, fun n hflag => ?_⟩
  by_cases hn : n = fd
  · rw [hn] at hflag ⊢
    exact h.kinds hflag
  · rw [(h.other n hn).1] at hflag ⊢
    exact hs.kinds n hflag

/-- Nothing becomes due. -/
theorem Touched.due_of {kind : FdType} {reads : Prop} {fd : Nat} {s t : LoopSt W}
    (h : Touched kind reads fd s t) {n : Nat} (hdue : t.due n = true) : s.due n = true := by
  by_cases hn : n = fd
  · rw [hn] at hdue ⊢
    rcases h.cleared with ⟨hsame, _⟩ | ⟨hclear, _⟩
    · exact hsame.symm.trans hdue
    · cases hdue.symm.trans hclear
  · exact (h.other n hn).2.1.symm.trans hdue

/-- And names nobody that was not named. -/
theorem Touched.untold_of {kind : FdType} {reads : Prop} {fd : Nat} {s t : LoopSt W}
    (h : Touched kind reads fd s t) {n : Nat} (huntold : t.untold n = true) :
    s.untold n = true := by
  by_cases hn : n = fd
  · rw [hn] at huntold ⊢
    rcases h.cleared with ⟨_, hsame, _⟩ | ⟨_, hclear | ⟨_, hsame⟩⟩
    · exact hsame.symm.trans huntold
    · cases huntold.symm.trans hclear
    · exact hsame.symm.trans huntold
  · exact (h.other n hn).2.2.symm.trans huntold

/-- What is still due is as untold as before. -/
theorem Touched.untold_stays {kind : FdType} {reads : Prop} {fd : Nat} {s t : LoopSt W}
    (h : Touched kind reads fd s t) {n : Nat} (hdue : t.due n = true)
    (huntold : s.untold n = true) : t.untold n = true := by
  by_cases hn : n = fd
  · rw [hn] at hdue huntold ⊢
    rcases h.cleared with ⟨_, hsame, _⟩ | ⟨hclear, _⟩
    · exact hsame.trans huntold
    · cases hdue.symm.trans hclear
  · exact (h.other n hn).2.2.trans huntold

/-- What is still untold is as due as before, unless it may have been read. -/
theorem Touched.due_stays {kind : FdType} {reads : Prop} {fd : Nat} {s t : LoopSt W}
    (h : Touched kind reads fd s t) {n : Nat} (huntold : t.untold n = true)
    (hdue : s.due n = true) (hread : n = fd → ¬ reads) : t.due n = true := by
  by_cases hn : n = fd
  · have hno := hread hn
    rw [hn] at hdue huntold ⊢
    rcases h.cleared with ⟨hsame, _⟩ | ⟨_, hclear | ⟨hyes, _⟩⟩
    · exact hsame.trans hdue
    · cases huntold.symm.trans hclear
    · exact absurd hyes hno
  · exact (h.other n hn).2.1.trans hdue

/-- What is due stays on the readlist. -/
theorem Touched.due_inv {kind : FdType} {reads : Prop} {fd : Nat} {s t : LoopSt W}
    (hs : ∀ n, s.due n = true → OnReadlist s.ep n) (h : Touched kind reads fd s t) :
    ∀ n, t.due n = true → OnReadlist t.ep n := by
  intro n hdue
  have hon := hs n (h.due_of hdue)
  unfold OnReadlist at hon ⊢
  by_cases hn : n = fd
  · rw [hn] at hdue hon ⊢
    rcases h.cleared with ⟨_, _, hflag⟩ | ⟨hclear, _⟩
    · exact hflag.trans hon
    · cases hdue.symm.trans hclear
  · rw [(h.other n hn).1]
    exact hon

/-- Outside of the lists' loops that is all. -/
theorem LoopInv.touch {kind : FdType} {reads : Prop} {fd : Nat} {s t : LoopSt W}
    (hs : LoopInv kind s) (hpc : s.pc.outside = true) (h : Touched kind reads fd s t) :
    LoopInv kind t := by
  refine ⟨h.lists_inv hs.lists, h.due_inv hs.due, fun pos tmp hwalk => ?_⟩
  rw [← h.pc, hwalk] at hpc
  cases hpc

/-! ## Going through a list -/

/-- The loop comes to the first of the entries `rest`. -/
theorem walkFrom_stands {ep : EpInfo} {past rest : List Nat}
    (hlist : Readlist ep (past ++ rest)) {pc : LoopPc}
    (h : walkFrom .read ((rest.map Node.slot).headD .readlist) ep = some pc) :
    ∃ tmp, pc = .walk .read ((rest.map Node.slot).headD .readlist) tmp ∧
      StandsAt ((rest.map Node.slot).headD .readlist) tmp rest := by
  unfold walkFrom at h
  rcases Option.map_eq_some_iff.mp h with ⟨tmp, htmp, heq⟩
  refine ⟨tmp, heq.symm, rfl, fun n more hrest => ?_⟩
  have hpath := hlist.1
  rw [hrest, List.map_append, List.map_cons] at hpath
  rw [hrest] at htmp
  exact Option.some.inj (htmp.symm.trans hpath.suffix.next)

/-- What is behind an entry stays behind it, whether the entry stays or is taken out. -/
theorem Readlist.behind {ep ep' : EpInfo} {past more : List Nat} {n : Nat}
    (hlist : Readlist ep (past ++ n :: more))
    (h : Readlist ep' (past ++ n :: more) ∨ Readlist ep' ((past ++ n :: more).erase n)) :
    ∃ past', Readlist ep' (past' ++ more) := by
  rcases h with hsame | herased
  · refine ⟨past ++ [n], ?_⟩
    rw [List.append_assoc]
    exact hsame
  · refine ⟨past, ?_⟩
    have hnot : n ∉ past := by
      intro hin
      have hdisjoint := (List.nodup_append.mp hlist.nodup).2.2
      exact hdisjoint n hin n List.mem_cons_self rfl
    rw [List.erase_append_right _ hnot, List.erase_cons_head] at herased
    exact herased

/-- What a turn is to keep: outside of the lists nothing is due. -/
structure Turned (kind : FdType) (s t : LoopSt W) : Prop where
  inv : LoopInv kind t
  stays : t.pc = .ready ∧ (∀ n, t.due n = false) ∨ ∃ k pos tmp, t.pc = .walk k pos tmp
  due : ∀ n, t.due n = true → s.due n = true
  untold : ∀ n, t.untold n = true → s.untold n = true

/-- The read handler is called for the entry at hand, and the loop goes on behind it. -/
theorem visit_turns {kind : FdType} (hkind : kind ≠ .listen) {read : ReadFn W} {n : Nat}
    {tmp : Node} {mapped : Bool} {outs : List RecvRes} {s m : LoopSt W} {pc : LoopPc}
    (hs : LoopInv kind s) (hpc : s.pc = .walk .read (.slot n) tmp)
    (hvisit : s.visit read .read n mapped outs = some m)
    (hnext : walkFrom .read tmp m.ep = some pc) : Turned kind s { m with pc := pc } := by
  rcases hs.walks _ _ hpc with ⟨past, rest, hlist, ⟨hpos, htmp⟩, hdue⟩
  cases rest with
  | nil => cases hpos
  | cons n' more =>
  have heq : n = n' := slot_injective hpos
  rw [← heq] at hlist htmp hdue
  have htmp' := htmp n more rfl
  -- the entry is that of a descriptor in use
  have hmem : n ∈ past ++ n :: more := List.mem_append_right _ List.mem_cons_self
  have hon := (hs.lists.filed.mem_readlist hlist n).mp hmem
  have hreg := hs.lists.filed.registered hon.flagged
  have htype := hs.lists.kinds n hon.flagged
  unfold LoopSt.visit at hvisit
  simp only [hreg.2, htype, hkind, if_false, Int.toNat_natCast] at hvisit
  rw [if_neg (by omega)] at hvisit
  rcases readFd_touched hs.lists htype hvisit with ⟨htouched, hcleared⟩
  -- it is not due any more, and the others are still before the loop
  have hdue' : ∀ k, m.due k = true → k ∈ more := by
    intro k hk
    rcases List.mem_cons.mp (hdue k (htouched.due_of hk)) with hself | hmore
    · rw [hself, hcleared] at hk
      cases hk
    · exact hmore
  rcases hlist.behind (htouched.walked _ hlist hmem) with ⟨past', hlist'⟩
  rw [htmp'] at hnext
  rcases walkFrom_stands hlist' hnext with ⟨tmp', hpc', hstands⟩
  have hlists : ListsInv kind m.ep := htouched.lists_inv hs.lists
  have hstays : ∀ k, m.due k = true → OnReadlist m.ep k := htouched.due_inv hs.due
  constructor
  · refine ⟨hlists, hstays, fun pos₁ tmp₁ hwalk => ?_⟩
    cases hpc'.symm.trans hwalk
    exact ⟨past', more, hlist', hstands, hdue'⟩
  · right
    exact ⟨_, _, _, hpc'⟩
  · intro k hk
    exact htouched.due_of hk
  · intro k hk
    exact htouched.untold_of hk

/-- An entry of the closelist is closed. -/
theorem visit_shuts {kind : FdType} {read : ReadFn W} {n : Nat} {tmp : Node} {mapped : Bool}
    {outs : List RecvRes} {s m : LoopSt W} {pc : LoopPc} (hs : LoopInv kind s)
    (hvisit : s.visit read .close n mapped outs = some m)
    (hnext : walkFrom .close tmp m.ep = some pc) : Turned kind s { m with pc := pc } := by
  rcases Option.map_eq_some_iff.mp hnext with ⟨tmp', _, hpc⟩
  unfold LoopSt.visit at hvisit
  simp only at hvisit
  split at hvisit
  · cases hvisit
  have htouched := shut_touched hs.lists hvisit
  have hlists : ListsInv kind m.ep := htouched.lists_inv hs.lists
  have hstays : ∀ k, m.due k = true → OnReadlist m.ep k := htouched.due_inv hs.due
  constructor
  · refine ⟨hlists, hstays, fun pos₁ tmp₁ hwalk => ?_⟩
    cases hpc.trans hwalk
  · right
    exact ⟨_, _, _, hpc.symm⟩
  · intro k hk
    exact htouched.due_of hk
  · intro k hk
    exact htouched.untold_of hk

/-- `handle_readlist` begins with all that is due before it. -/
theorem walkBegin_turns {kind : FdType} {s : LoopSt W} {pc : LoopPc}
    (hlists : ListsInv kind s.ep) (hdue : ∀ n, s.due n = true → OnReadlist s.ep n)
    (h : walkBegin .read s.ep = some pc) : Turned kind s { s with pc := pc } := by
  rcases hlists.filed.readlist with ⟨xs, hxs, hmem⟩
  unfold walkBegin at h
  rw [show CacheType.head .read = Node.readlist from rfl, hxs.1.next, Option.bind_some] at h
  have hxs' : Readlist s.ep ([] ++ xs) := hxs
  rcases walkFrom_stands hxs' h with ⟨tmp, hpc, hstands⟩
  constructor
  · refine ⟨hlists, hdue, fun pos₁ tmp₁ hwalk => ?_⟩
    cases hpc.symm.trans hwalk
    exact ⟨[], xs, hxs, hstands, fun n hn => (hmem n).mpr (hdue n hn)⟩
  · right
    exact ⟨_, _, _, hpc⟩
  · exact fun _ hn => hn
  · exact fun _ hn => hn

/-- **A turn of either list's loop.** Behind the readlist nothing is due. -/
theorem turn_turns {kind : FdType} (hkind : kind ≠ .listen) {read : ReadFn W} {k : CacheType}
    {pos tmp : Node} {mapped : Bool} {outs : List RecvRes} {s t : LoopSt W} (hs : LoopInv kind s)
    (hpc : s.pc = .walk k pos tmp) (h : s.turn read k pos tmp mapped outs = some t) :
    Turned kind s t := by
  unfold LoopSt.turn at h
  split at h
  · next hhead =>
    cases k with
    | close =>
      rcases Option.map_eq_some_iff.mp h with ⟨pc, hbegin, heq⟩
      cases heq
      exact walkBegin_turns hs.lists hs.due hbegin
    | read =>
      cases h
      rcases hs.walks pos tmp hpc with ⟨past, rest, _, ⟨hpos, _⟩, hdue⟩
      -- the walk is at the head again, so nothing is left of the list
      have hnone : ∀ n, s.due n = false := by
        intro n
        by_contra hyes
        have hmem := hdue n (by simpa using hyes)
        cases rest with
        | nil => cases hmem
        | cons n' more => cases hhead.symm.trans hpos
      constructor
      · exact ⟨hs.lists, hs.due, fun _ _ hwalk => nomatch hwalk⟩
      · left
        exact ⟨rfl, hnone⟩
      · exact fun _ hn => hn
      · exact fun _ hn => hn
  · split at h
    · next n _ =>
      rcases Option.bind_eq_some_iff.mp h with ⟨m, hvisit, hmap⟩
      rcases Option.map_eq_some_iff.mp hmap with ⟨pc, hnext, heq⟩
      cases heq
      cases k with
      | close => exact visit_shuts hs hvisit hnext
      | read => exact visit_turns hkind hs hpc hvisit hnext
    · cases h

/-! ## The other steps -/

/-- A new descriptor is on no list. -/
theorem add_keeps {kind : FdType} {s : LoopSt W} (hs : LoopInv kind s) (ctl : Bool) {fd : Nat}
    (hfree : ¬ Registered s.ep fd) (idx : Int) (type : FdType) (addr : FdAddr) :
    LoopInv kind { s with ep := (addFdinfoToEpinfo ctl fd idx type addr s.ep).2 } := by
  unfold addFdinfoToEpinfo
  cases ctl with
  | false => exact hs
  | true =>
    rcases addFdinfo_frame fd idx type addr s.ep with ⟨hfds, _, hlinks, _⟩
    simp only [if_true]
    constructor
    · refine ⟨addFdinfo_keeps hs.lists.filed hfree idx type addr, fun n hflag => ?_⟩
      rw [hfds] at hflag ⊢
      by_cases hn : n = fd
      · rw [hn, Function.update_self] at hflag
        exact absurd rfl hflag
      · rw [Function.update_of_ne hn] at hflag ⊢
        exact hs.lists.kinds n hflag
    · intro n hdue
      have hon : OnReadlist s.ep n := hs.due n hdue
      have hn : n ≠ fd := by
        intro heq
        rw [heq] at hon
        exact hfree (hs.lists.filed.registered hon.flagged)
      unfold OnReadlist at hon ⊢
      rw [hfds, Function.update_of_ne hn]
      exact hon
    · intro pos tmp hwalk
      rcases hs.walks pos tmp hwalk with ⟨past, rest, hlist, hstands, hdue⟩
      refine ⟨past, rest, ?_, hstands, hdue⟩
      unfold Readlist
      rw [hlinks]
      exact hlist

/-- A restart touches no entry of a list, under the lists' condition. -/
theorem restart_keeps {kind : FdType} {s : LoopSt W} (hs : LoopInv kind s) {idx : Int}
    (hnone : NoneWaits (.restart idx) s.ep) {due untold : Nat → Bool}
    (hdue : ∀ n, due n = true → s.due n = true) :
    LoopInv kind { s with ep := (closeDownedFds idx s.ep).1, due := due, untold := untold } := by
  rcases closeDowned_frame idx s.ep (s.ep.maxfd + 1).toNat with ⟨hfds, _, hlinks⟩
  have hsame : ∀ n, ((closeDownedFds idx s.ep).1.fds n).flag = (s.ep.fds n).flag ∧
      ((closeDownedFds idx s.ep).1.fds n).type = (s.ep.fds n).type := by
    intro n
    unfold closeDownedFds
    rw [hfds n]
    split
    · exact ⟨rfl, rfl⟩
    · exact ⟨rfl, rfl⟩
  rcases closeDownedFds_keeps hs.lists.filed idx with ⟨_, hinv⟩ | ⟨hno, _⟩
  swap
  · exact absurd hnone hno
  constructor
  · refine ⟨hinv, fun n hflag => ?_⟩
    simp only [(hsame n).1, (hsame n).2] at hflag ⊢
    exact hs.lists.kinds n hflag
  · intro n hn
    have hon := hs.due n (hdue n hn)
    unfold OnReadlist at hon ⊢
    exact (hsame n).1.trans hon
  · intro pos tmp hwalk
    rcases hs.walks pos tmp hwalk with ⟨past, rest, hlist, hstands, hall⟩
    refine ⟨past, rest, ?_, hstands, fun n hn => hall n (hdue n hn)⟩
    unfold Readlist closeDownedFds
    rw [hlinks]
    exact hlist

/-- **An event is handled**: one that has `EPOLLIN` and is for something on the readlist
is answered by the read handler. -/
theorem event_touched {ismaster : Bool} {read : ReadFn W} {ev : Event} {mapped : Bool}
    {recvs : List RecvRes} {outs : List SendRes} {s t : LoopSt W}
    (hs : LoopInv (connKind ismaster) s)
    (h : LoopSt.event ismaster read ev mapped recvs outs s = some t) :
    Touched (connKind ismaster) (ev.mask.epollin = true) ev.fd s t ∧
      (ev.mask.epollin = true → t.due ev.fd = false) := by
  have hsame : Touched (connKind ismaster) (ev.mask.epollin = true) ev.fd s s :=
    ⟨rfl, hs.lists.filed, fun _ _ => ⟨rfl, rfl, rfl⟩, hs.lists.kinds ev.fd,
      Or.inl ⟨rfl, rfl, rfl⟩, fun _ hxs _ => Or.inl hxs⟩
  unfold LoopSt.event at h
  split at h
  · next hin =>
    split at h
    · next htype =>
      rcases readFd_touched hs.lists htype h with ⟨htouched, hdue⟩
      exact ⟨htouched.mono fun _ => hin, fun _ => hdue⟩
    · -- it is on no list
      next htype =>
      cases h
      refine ⟨hsame, fun _ => ?_⟩
      by_contra hdue
      have hon := hs.due ev.fd (by simpa using hdue)
      exact htype (hs.lists.kinds ev.fd hon.flagged)
  · next hin =>
    split at h
    · split at h
      · have htouched := keepSent_touched hs.lists h
        exact ⟨htouched.mono False.elim, fun hyes => absurd hyes hin⟩
      · cases h
    · cases h
      exact ⟨hsame, fun hyes => absurd hyes hin⟩

/-- `epoll_wait` makes due what is on the readlist. -/
theorem wait_keeps {kind : FdType} {s : LoopSt W} (hs : LoopInv kind s) (evs : List Event) :
    LoopInv kind (s.wait evs) := by
  constructor
  · exact hs.lists
  · intro n hdue
    exact of_decide_eq_true hdue
  · intro pos tmp hwalk
    cases hwalk

/-- A step to a place outside of `handle_readlist`. -/
theorem LoopInv.goto {kind : FdType} {s : LoopSt W} (hs : LoopInv kind s) {pc : LoopPc}
    (hpc : ∀ pos tmp, pc ≠ .walk .read pos tmp) : LoopInv kind { s with pc := pc } :=
  ⟨hs.lists, hs.due, fun pos tmp hwalk => absurd hwalk (hpc pos tmp)⟩

/-- `do_fd_send` and `do_fd_close`, between the events and in `handle_mq_send`. -/
theorem side_touched {kind : FdType} {ismaster : Bool} {read : ReadFn W} {max : Int}
    {l : LoopLbl} {fd : Nat} {s t : LoopSt W} (hs : LoopInv kind s)
    (hl : l = .close fd ∨ ∃ alloc data len outs, l = .send fd alloc data len outs)
    (h : loopStep ismaster read max l s = some t) :
    Touched kind False fd s t ∧ s.pc.outside = true := by
  rcases hl with hl | ⟨alloc, data, len, outs, hl⟩
  · subst hl
    unfold loopStep at h
    simp only [Option.ite_none_right_eq_some] at h
    exact ⟨shut_touched hs.lists h.2, h.1⟩
  · subst hl
    unfold loopStep at h
    simp only [Option.ite_none_right_eq_some] at h
    rcases h with ⟨⟨hout, _⟩, h⟩
    split at h
    · exact ⟨keepSent_touched hs.lists h, hout⟩
    · cases h

/-! ## The master -/

/-- The master's invariant: behind the lists nothing is due. -/
structure ServesInv (s : LoopSt W) : Prop where
  loop : LoopInv .cli s
  ready : s.pc = .ready → ∀ n, s.due n = false

/-- A step that makes nothing due and stays where it is. -/
theorem ServesInv.stay {s t : LoopSt W} (hs : ServesInv s) (hloop : LoopInv .cli t)
    (hpc : t.pc = s.pc) (hdue : ∀ n, t.due n = true → s.due n = true) : ServesInv t := by
  refine ⟨hloop, fun hready n => ?_⟩
  by_contra hyes
  have hsdue := hdue n (by simpa using hyes)
  cases (hs.ready (hpc.symm.trans hready) n).symm.trans hsdue

/-- **One step of the master.** -/
theorem masterStep_serves {read : ReadFn W} {max : Int} {l : LoopLbl} {s t : LoopSt W}
    (hs : ServesInv s) (hkept : ListsKept l s) (h : loopStep true read max l s = some t) :
    Served l s ∧ ServesInv t := by
  have hside : ∀ fd, (l = .close fd ∨ ∃ alloc data len outs, l = .send fd alloc data len outs) →
      ServesInv t := by
    intro fd hl
    rcases side_touched hs.loop hl h with ⟨htouched, hout⟩
    exact hs.stay (hs.loop.touch hout htouched) htouched.pc fun n hn => htouched.due_of hn
  cases l with
  | turn mapped recvs =>
    refine ⟨trivial, ?_⟩
    simp only [loopStep] at h
    split at h
    · next hpc =>
      -- only behind the readlist does it come to `epoll_wait`
      have hturned := turn_turns (by decide) hs.loop hpc h
      refine ⟨hturned.inv, fun hready => ?_⟩
      rcases hturned.stays with ⟨_, hnone⟩ | ⟨k, pos, tmp, hwalk⟩
      · exact hnone
      · cases hready.symm.trans hwalk
    · cases h
  | wait evs =>
    simp only [loopStep] at h
    split at h
    · next hready =>
      cases h
      exact ⟨hs.ready hready, wait_keeps hs.loop evs, fun hpc => nomatch hpc⟩
    · cases h
  | event mapped recvs outs =>
    refine ⟨trivial, ?_⟩
    simp only [loopStep] at h
    split at h
    · next ev evs _ =>
      have hgoto : LoopInv (connKind true) { s with pc := .events evs } :=
        hs.loop.goto fun _ _ hpc => nomatch hpc
      rcases event_touched hgoto h with ⟨htouched, _⟩
      refine ⟨hgoto.touch rfl htouched, fun hready => ?_⟩
      cases htouched.pc.symm.trans hready
    · cases h
  | next =>
    refine ⟨trivial, ?_⟩
    simp only [loopStep, if_true] at h
    split at h
    · -- the round ends in front of the lists, not of `epoll_wait`
      rcases Option.map_eq_some_iff.mp h with ⟨pc, hbegin, heq⟩
      cases heq
      rcases Option.bind_eq_some_iff.mp hbegin with ⟨pos, _, hfrom⟩
      rcases Option.map_eq_some_iff.mp hfrom with ⟨tmp, _, hpc⟩
      subst hpc
      exact ⟨hs.loop.goto fun _ _ hpc => (by cases hpc), fun hpc => nomatch hpc⟩
    · cases h
  | add ctl fd idx type addr =>
    refine ⟨trivial, ?_⟩
    simp only [loopStep, Option.ite_none_right_eq_some] at h
    rcases h with ⟨hfree, h⟩
    cases h
    exact hs.stay (add_keeps hs.loop ctl hfree idx type addr) rfl fun _ hn => hn
  | send fd alloc data len outs =>
    exact ⟨trivial, hside fd (Or.inr ⟨alloc, data, len, outs, rfl⟩)⟩
  | close fd => exact ⟨trivial, hside fd (Or.inl rfl)⟩
  | restart idx =>
    refine ⟨trivial, ?_⟩
    simp only [loopStep, if_true] at h
    cases h
    have hdue : ∀ n, (s.due n && decide ((n : Int) ∉ (closeDownedFds idx s.ep).2)) = true →
        s.due n = true := fun n hn => (Bool.and_eq_true_iff.mp hn).1
    exact hs.stay (restart_keeps hs.loop hkept hdue) rfl hdue

/-! ## A worker -/

/-- A worker's invariant: what is due has not been named, or its event is still to come. -/
structure WorkInv (s : LoopSt W) : Prop where
  loop : LoopInv .svr s
  named : ∀ n, s.untold n = true → s.due n = true
  waits : ∀ n, s.due n = true → s.untold n = true ∨ ∃ evs, s.pc = .events evs ∧ Told evs n
  tells : ∀ evs, s.pc = .events evs → ∀ n, s.untold n = true → ¬ Told evs n
  idle : ∀ k pos tmp, s.pc = .walk k pos tmp → ∀ n, s.due n = false

/-- What is sent or closed beside the events. -/
theorem WorkInv.touch {fd : Nat} {s t : LoopSt W} (hs : WorkInv s)
    (hout : s.pc.outside = true) (h : Touched .svr False fd s t) : WorkInv t := by
  constructor
  · exact hs.loop.touch hout h
  · intro n hn
    exact h.due_stays hn (hs.named n (h.untold_of hn)) fun _ hno => hno
  · intro n hn
    rcases hs.waits n (h.due_of hn) with huntold | ⟨evs, hpc, htold⟩
    · exact Or.inl (h.untold_stays hn huntold)
    · right
      exact ⟨evs, h.pc.trans hpc, htold⟩
  · intro evs hpc n hn
    exact hs.tells evs (h.pc.symm.trans hpc) n (h.untold_of hn)
  · intro k pos tmp hpc n
    by_contra hyes
    have hdue := h.due_of (n := n) (by simpa using hyes)
    cases (hs.idle k pos tmp (h.pc.symm.trans hpc) n).symm.trans hdue

/-- An event is handled. -/
theorem WorkInv.event {read : ReadFn W} {ev : Event} {evs : List Event} {mapped : Bool}
    {recvs : List RecvRes} {outs : List SendRes} {s t : LoopSt W} (hs : WorkInv s)
    (hpc : s.pc = .events (ev :: evs))
    (h : LoopSt.event false read ev mapped recvs outs { s with pc := .events evs } = some t) :
    WorkInv t := by
  have hgoto : LoopInv (connKind false) { s with pc := .events evs } :=
    hs.loop.goto fun _ _ hno => nomatch hno
  rcases event_touched hgoto h with ⟨htouched, hread⟩
  have hevents : t.pc = .events evs := htouched.pc
  constructor
  · exact hgoto.touch rfl htouched
  · intro n hn
    have huntold : s.untold n = true := htouched.untold_of hn
    refine htouched.due_stays hn (hs.named n huntold) fun heq hin => ?_
    -- what the event names was not untold
    exact hs.tells _ hpc n huntold ⟨ev, List.mem_cons_self, heq.symm, hin⟩
  · intro n hn
    rcases hs.waits n (htouched.due_of hn) with huntold | ⟨evs', hpc', ev', hmem, hfd, hin⟩
    · exact Or.inl (htouched.untold_stays hn huntold)
    · cases hpc.symm.trans hpc'
      rcases List.mem_cons.mp hmem with heq | hrest
      · rw [← hfd, heq, hread (heq ▸ hin)] at hn
        cases hn
      · right
        exact ⟨evs, hevents, ev', hrest, hfd, hin⟩
  · intro evs' hpc' n hn htold
    cases hevents.symm.trans hpc'
    rcases htold with ⟨ev', hmem, hboth⟩
    exact hs.tells _ hpc n (htouched.untold_of hn) ⟨ev', List.mem_cons_of_mem ev hmem, hboth⟩
  · intro k pos tmp hwalk
    cases hevents.symm.trans hwalk

/-- `epoll_wait` is called: what is due is what was not named. -/
theorem WorkInv.wait {s : LoopSt W} (hs : WorkInv s) (hready : s.pc = .ready)
    (evs : List Event) :
    ((∀ n, s.due n = false) ↔ ∀ n, s.untold n = false) ∧ WorkInv (s.wait evs) := by
  constructor
  · constructor
    · intro hnone n
      by_contra hyes
      cases (hnone n).symm.trans (hs.named n (by simpa using hyes))
    · intro hnone n
      by_contra hyes
      rcases hs.waits n (by simpa using hyes) with huntold | ⟨evs', hpc, _⟩
      · cases (hnone n).symm.trans huntold
      · cases hready.symm.trans hpc
  constructor
  · exact wait_keeps hs.loop evs
  · intro n hn
    exact decide_eq_true (of_decide_eq_true hn).1
  · intro n hn
    have hon : OnReadlist s.ep n := of_decide_eq_true hn
    by_cases htold : Told evs n
    · exact Or.inr ⟨evs, rfl, htold⟩
    · exact Or.inl (decide_eq_true ⟨hon, htold⟩)
  · intro evs' hpc n hn
    cases hpc
    exact (of_decide_eq_true hn).2
  · intro k pos tmp hwalk
    cases hwalk

/-- The lists are gone through before the first `epoll_wait`, when nothing is due. -/
theorem WorkInv.turn {s t : LoopSt W} (hs : WorkInv s) {k : CacheType} {pos tmp : Node}
    (hpc : s.pc = .walk k pos tmp) (h : Turned .svr s t) : WorkInv t := by
  have hnone : ∀ n, t.due n ≠ true := by
    intro n hn
    cases (hs.idle _ _ _ hpc n).symm.trans (h.due n hn)
  constructor
  · exact h.inv
  · intro n hn
    have hdue := hs.named n (h.untold n hn)
    cases (hs.idle _ _ _ hpc n).symm.trans hdue
  · intro n hn
    exact absurd hn (hnone n)
  · intro evs hevents
    rcases h.stays with ⟨hready, _⟩ | ⟨k, pos, tmp, hwalk⟩
    · cases hready.symm.trans hevents
    · cases hwalk.symm.trans hevents
  · intro k pos tmp _ n
    simpa using hnone n

/-- The round ends: what is due now was not named, as no event is left. -/
theorem WorkInv.next {s : LoopSt W} (hs : WorkInv s) (hpc : s.pc = .events []) :
    WorkInv { s with pc := .ready } := by
  constructor
  · exact hs.loop.goto fun _ _ hno => nomatch hno
  · exact hs.named
  · intro n hn
    rcases hs.waits n hn with huntold | ⟨evs, hevents, htold⟩
    · exact Or.inl huntold
    · cases hpc.symm.trans hevents
      rcases htold with ⟨ev, hmem, _⟩
      cases hmem
  · intro evs hevents
    cases hevents
  · intro k pos tmp hwalk
    cases hwalk

/-- **One step of a worker.** -/
theorem workStep_serves {read : ReadFn W} {max : Int} {l : LoopLbl} {s t : LoopSt W}
    (hs : WorkInv s) (h : loopStep false read max l s = some t) :
    (Served l s ↔ AllTold l s) ∧ WorkInv t := by
  -- what a callback does touches one descriptor
  have hside : ∀ fd, (l = .close fd ∨ ∃ alloc data len outs, l = .send fd alloc data len outs) →
      WorkInv t := by
    intro fd hl
    rcases side_touched hs.loop hl h with ⟨htouched, hout⟩
    exact hs.touch hout htouched
  cases l with
  | turn mapped recvs =>
    refine ⟨Iff.rfl, ?_⟩
    simp only [loopStep] at h
    split at h
    · next hpc => exact hs.turn hpc (turn_turns (by decide) hs.loop hpc h)
    · cases h
  | wait evs =>
    simp only [loopStep] at h
    split at h
    · next hready =>
      cases h
      -- here the condition is needed, and only here
      exact hs.wait hready evs
    · cases h
  | event mapped recvs outs =>
    refine ⟨Iff.rfl, ?_⟩
    simp only [loopStep] at h
    split at h
    · next hpc => exact hs.event hpc h
    · cases h
  | next =>
    refine ⟨Iff.rfl, ?_⟩
    simp only [loopStep, Bool.false_eq_true, if_false] at h
    split at h
    · next hpc =>
      cases h
      exact hs.next hpc
    · cases h
  | add ctl fd idx type addr =>
    refine ⟨Iff.rfl, ?_⟩
    simp only [loopStep, Option.ite_none_right_eq_some] at h
    rcases h with ⟨hfree, h⟩
    cases h
    exact ⟨add_keeps hs.loop ctl hfree idx type addr, hs.named, hs.waits, hs.tells, hs.idle⟩
  | send fd alloc data len outs =>
    exact ⟨Iff.rfl, hside fd (Or.inr ⟨alloc, data, len, outs, rfl⟩)⟩
  | close fd => exact ⟨Iff.rfl, hside fd (Or.inl rfl)⟩
  -- a worker restarts nobody
  | restart idx =>
    simp only [loopStep, Bool.false_eq_true, if_false] at h
    cases h

/-! ## Runs -/

/-- Both lists are empty in front of the loop. -/
theorem loopInit_inv (kind : FdType) (w : W) : LoopInv kind (loopInit w) := by
  constructor
  · refine ⟨epInit_filed, fun n hflag => ?_⟩
    exact absurd rfl hflag
  · intro n hn
    cases hn
  · intro pos tmp hwalk
    cases hwalk

/-- **Nothing on the readlist waits for an event** in a run of the master that keeps the
lists in order. In a run of a worker it is so exactly when each time `epoll_wait` names
all that is on the readlist, but for what is closed before the next call. -/
theorem readlist_served (push : Push Q) (proc : Proc W) (get : Mem → Int → Int32) (max : Int)
    (q : Q) (w : W) (ls : List LoopLbl) :
    (Along (loopStep true (cliRead push get max) max) ListsKept ls (loopInit q) →
        Along (loopStep true (cliRead push get max) max) Served ls (loopInit q)) ∧
      (Along (loopStep false (svrRead proc get max) max) Served ls (loopInit w) ↔
        Along (loopStep false (svrRead proc get max) max) AllTold ls (loopInit w)) := by
  have hmaster : ServesInv (loopInit q) := ⟨loopInit_inv .cli q, fun hready => nomatch hready⟩
  have hwork : WorkInv (loopInit w) := by
    constructor
    · exact loopInit_inv .svr w
    · intro n hn
      cases hn
    · intro n hn
      cases hn
    · intro evs hevents
      cases hevents
    · intro k pos tmp _ n
      rfl
  constructor
  · apply along_of_along ServesInv
    · exact fun l s t hs hkept h => masterStep_serves hs hkept h
    · exact hmaster
  constructor
  · apply along_of_along WorkInv
    · intro l s t hs hserved h
      rcases workStep_serves hs h with ⟨hiff, hinv⟩
      exact ⟨hiff.mp hserved, hinv⟩
    · exact hwork
  · apply along_of_along WorkInv
    · intro l s t hs htold h
      rcases workStep_serves hs h with ⟨hiff, hinv⟩
      exact ⟨hiff.mpr htold, hinv⟩
    · exact hwork

instance : ∀ (l : LoopLbl) (s : LoopSt W), Decidable (ListsKept l s)
  | .restart idx, s =>
    inferInstanceAs (Decidable (∀ n, n < (s.ep.maxfd + 1).toNat → (s.ep.fds n).Downed idx →
      (s.ep.fds n).flag = 0))
  | .turn _ _, _ => isTrue trivial
  | .wait _, _ => isTrue trivial
  | .event _ _ _, _ => isTrue trivial
  | .next, _ => isTrue trivial
  | .add _ _ _ _ _, _ => isTrue trivial
  | .send _ _ _ _ _, _ => isTrue trivial
  | .close _, _ => isTrue trivial

/-- An event with `EPOLLIN`. -/
def readableAt (fd : Nat) : Event := ⟨fd, ⟨true, false, false⟩⟩

/-- A connection of the given kind sends four bytes at once, which fill the buffer. -/
def burst (type : FdType) : List LoopLbl :=
  [.turn true [], .turn true [], .add true 7 0 type ⟨0, 0⟩, .wait [readableAt 7],
    .event true [.data [1, 2, 3, 4]] [], .next]

/-- The master goes through its lists, and finds two bytes more; worker 3, which has
nothing there, is restarted. -/
def nextRound : List LoopLbl :=
  [.turn true [], .turn true [.data [5, 6], .eagain], .turn true [], .restart 3, .wait []]

/-- The master reads the rest in its next round. -/
theorem readlist_served_nextRound :
    Along (loopStep true (cliRead mqPush (fun _ _ => 2) 4) 4) Served (burst .cli ++ nextRound)
      (loopInit (mqInit 128)) :=
  (readlist_served mqPush (fun n _ _ _ => n + 1) (fun _ _ => 2) 4 (mqInit 128) 0 _).1
    (by decide +kernel)

/-- The worker waits twice, and the kernel has nothing new to tell. -/
def waitTwice : List LoopLbl := [.wait [], .next]

/-- Three clients fill their buffers, and the worker of the second one is restarted. Its
number goes to a new client, which fills its buffer, too: a node that is linked already is
added at the end, and the third client's drops out of the list. -/
def relinked : List LoopLbl :=
  [.turn true [], .turn true [], .add true 5 2 .cli ⟨0, 0⟩, .add true 6 1 .cli ⟨0, 0⟩,
    .add true 7 2 .cli ⟨0, 0⟩, .wait [readableAt 5, readableAt 6, readableAt 7],
    .event true [.data [1, 2, 3, 4]] [], .event true [.data [1, 2, 3, 4]] [],
    .event true [.data [1, 2, 3, 4]] [], .restart 1, .add true 6 1 .cli ⟨0, 0⟩, .next,
    .turn true [], .turn true [], .turn true [.data [1, 2, 3, 4]], .turn true [], .turn true [],
    .turn true [], .wait [], .next, .turn true [], .turn true [], .turn true [], .turn true []]

/-- `epoll_wait` is called while 7 is due. -/
theorem not_served_of_due {step : LoopLbl → LoopSt W → Option (LoopSt W)} {ls : List LoopLbl}
    {s : LoopSt W} (hsome : (exec step ls s).isSome = true)
    (hall : ∀ t ∈ exec step ls s, t.due 7 = true ∧ (step (.wait []) t).isSome = true) :
    ¬ Along step Served (ls ++ [.wait []]) s := by
  intro hserved
  rcases Option.isSome_iff_exists.mp hsome with ⟨m, hm⟩
  rcases hall m hm with ⟨hdue, hnext⟩
  rcases Option.isSome_iff_exists.mp hnext with ⟨t, ht⟩
  have hnone : ∀ n, m.due n = false := along_last hserved hm ht
  cases (hnone 7).symm.trans hdue

/-- A worker waits for the third time, and has not read again; nor has a master whose
readlist is broken. -/
theorem waitTwice_not_served :
    ¬ Along (loopStep false (svrRead (fun n _ _ _ => n + 1) (fun _ _ => 2) 4) 4) Served
        ((burst .svr ++ waitTwice) ++ [.wait []]) (loopInit 0) ∧
      ¬ Along (loopStep true (cliRead mqPush (fun _ _ => 5) 4) 4) Served (relinked ++ [.wait []])
        (loopInit (mqInit 128)) := by
  constructor
  · exact not_served_of_due (by decide +kernel) (by decide +kernel)
  · exact not_served_of_due (by decide +kernel) (by decide +kernel)

end SServer.Table
