import SServer.Table.Lists

/-!
# SServer.Net.Socket — the descriptors of a process

Five functions make a socket, set it up by calls that may each fail, and either keep it or
close it when they are done: `safe_socket_listen`, `safe_tcp_accept` and `safe_tcp_connect`
also close it when a call fails, `mcast_cli_init` and `send_pkg_to_mcast` do not. What is kept
is registered in `epinfo`, or not, when `epoll_ctl` fails; nobody closes it then either.

The result: in every run of such calls and of closings, the open descriptors are those that
the process had, those that are registered, and one for each call that has left one behind.
They stay within the limit, so what is left behind can use it up.

* `call_cases`: a call leaves all as it was, or one descriptor behind, or registers one.
* `sockStep_accounted`: one step keeps the account.
* `sockets_accounted`: the result, with any of the system calls failing or not.

Only the fate of the descriptors is modelled: addresses, options and time limits are left out,
as nothing here depends on them but the answers of the calls.
-/

namespace SServer.Net

open SServer.Lib SServer.Table

/-! ## The functions -/

/-- A function that makes a socket: whether it closes it when a call fails and keeps it when all
succeed, and what `socket` and the calls answer. -/
structure Opening where
  closes : Bool
  keeps : Bool
  socket : Option Nat
  calls : List Bool

/-- What it returns, and the open descriptors; a call is made only if all before it succeeded. -/
def Opening.run (f : Opening) (opened : List Nat) : Option Nat × List Nat :=
  match f.socket with
  | none => (none, opened)
  | some fd =>
    let opened := fd :: opened
    if f.calls.all id then (some fd, if f.keeps then opened else opened.erase fd)
    else (none, if f.closes then opened.erase fd else opened)

/-- The second argument of `socket`. -/
inductive SockType where
  | stream
  | dgram
  | other
deriving DecidableEq, Repr

/-- What the calls of `safe_socket_listen` answer, and `epoll_ctl` behind them. -/
structure ListenAns where
  socket : Option Nat
  reuseaddr : Bool
  rcvbuf : Bool
  sndbuf : Bool
  bind : Bool
  listen : Bool
  ctl : Bool

/-- `safe_socket_listen`. -/
def safeSocketListen (type : SockType) (a : ListenAns) : Opening where
  closes := true
  keeps := true
  socket := a.socket
  calls := (if type = .dgram then [] else [a.reuseaddr]) ++ [a.rcvbuf, a.sndbuf, a.bind] ++
    if type = .stream then [a.listen] else []

/-- What `accept` and the calls behind it answer. -/
structure AcceptAns where
  newfd : Option Nat
  nonblock : Bool
  ctl : Bool

/-- `safe_tcp_accept`, from the `accept` on that is not interrupted. -/
def safeTcpAccept (nonblock : Bool) (a : AcceptAns) : Opening where
  closes := true
  keeps := true
  socket := a.newfd
  calls := if nonblock then [a.nonblock] else []

/-- What the calls of `safe_tcp_connect` answer, with that of `inet_pton`. -/
structure ConnAns where
  pton : Bool
  socket : Option Nat
  connect : Bool
  ctl : Bool

/-- `safe_tcp_connect`, behind `inet_pton`; nobody looks at what setting options answers. -/
def safeTcpConnect (a : ConnAns) : Opening where
  closes := true
  keeps := true
  socket := a.socket
  calls := [a.connect]

/-- What the calls of `mcast_cli_init` answer. -/
structure JoinAns where
  socket : Option Nat
  reuseaddr : Bool
  bind : Bool
  ttl : Bool
  loop : Bool
  membership : Bool
  ctl : Bool

/-- `mcast_cli_init`. -/
def mcastCliInit (a : JoinAns) : Opening where
  closes := false
  keeps := true
  socket := a.socket
  calls := [a.reuseaddr, a.bind, a.ttl, a.loop, a.membership]

/-- What the calls of `send_pkg_to_mcast` answer; `sent`, that `sendto` took the whole packet. -/
structure SendAns where
  socket : Option Nat
  ttl : Bool
  loop : Bool
  iface : Bool
  sent : Bool

/-- `send_pkg_to_mcast`. -/
def sendPkgToMcast (a : SendAns) : Opening where
  closes := false
  keeps := false
  socket := a.socket
  calls := [a.ttl, a.loop, a.iface, a.sent]

/-! ## A process -/

/-- The table of a process and its open descriptors. -/
structure SockSt where
  ep : EpInfo
  opened : List Nat

/-- A process with the descriptors `base`, and nothing registered. -/
def sockInit (base : List Nat) : SockSt := { ep := epInit, opened := base }

/-- The arguments of `add_fdinfo_to_epinfo`, what `epoll_ctl` answers, and whether the caller asks
for a descriptor above 0. -/
structure Registering where
  asks : Bool
  ctl : Bool
  idx : Int
  type : FdType
  addr : FdAddr

/-- What is registered of what has been returned. -/
def Registering.Takes (g : Registering) (fd : Nat) : Prop := (g.asks = true → 0 < fd) ∧ g.ctl = true

instance (g : Registering) (fd : Nat) : Decidable (g.Takes fd) :=
  inferInstanceAs (Decidable (_ ∧ _))

/-- A function is called, and what it returns is registered. -/
def SockSt.call (f : Opening) (g : Option Registering) (s : SockSt) : SockSt :=
  let (fd, opened) := f.run s.opened
  match fd, g with
  | some fd, some g =>
    if g.asks = true → 0 < fd then
      { ep := (addFdinfoToEpinfo g.ctl fd g.idx g.type g.addr s.ep).2, opened := opened }
    else { s with opened := opened }
  | _, _ => { s with opened := opened }

/-- The socket of `master_listen`, of `do_fd_open`, of `work_init`, of `connect_to_serv` and of
`do_syn_serv_addr`, each with what its caller does with it; and `do_fd_close`. -/
inductive SockLbl where
  | listen (a : ListenAns) (idx : Int) (addr : FdAddr)
  | accept (a : AcceptAns) (idx : Int) (addr : FdAddr)
  | join (a : JoinAns) (idx : Int)
  | connect (a : ConnAns) (addr : FdAddr)
  | syn (a : SendAns)
  | close (fd : Nat)

/-- The call that a label makes. -/
def SockLbl.call : SockLbl → Option (Opening × Option Registering)
  | .listen a idx addr => some (safeSocketListen .stream a, some ⟨false, a.ctl, idx, .listen, addr⟩)
  | .accept a idx addr => some (safeTcpAccept true a, some ⟨true, a.ctl, idx, .cli, addr⟩)
  | .join a idx => some (mcastCliInit a, some ⟨false, a.ctl, idx, .mcast, ⟨0, 0⟩⟩)
  | .connect a addr =>
    if a.pton then some (safeTcpConnect a, some ⟨true, a.ctl, 0, .svr, addr⟩) else none
  | .syn a => some (sendPkgToMcast a, none)
  | .close _ => none

/-- One step, in a process that may have `limit` descriptors. The kernel gives no number that is
in use, and what is closed is registered. -/
def sockStep (limit : Nat) (l : SockLbl) (s : SockSt) : Option SockSt :=
  match l.call, l with
  | some (f, g), _ =>
    if ∀ fd ∈ f.socket, fd ∉ s.opened ∧ s.opened.length < limit then some (s.call f g) else none
  | none, .close fd =>
    if 0 < fd ∧ Registered s.ep fd then
      (closeFd fd s.ep).map fun ep => { ep := ep, opened := s.opened.erase fd }
    else none
  | none, _ => some s

/-- A call leaves a socket behind: a call on it fails and it is not closed, or it is returned and
not registered. -/
def Opening.Leaves (f : Opening) (g : Option Registering) : Prop :=
  ∃ fd ∈ f.socket,
    if f.calls.all id = true then ∃ r ∈ g, ¬ r.Takes fd else f.closes = false

instance (f : Opening) (g : Option Registering) : Decidable (f.Leaves g) :=
  inferInstanceAs (Decidable (∃ _ ∈ _, _))

/-- So does the call of a label. -/
def SockLbl.Leaves (l : SockLbl) : Prop := ∃ c ∈ l.call, c.1.Leaves c.2

instance (l : SockLbl) : Decidable l.Leaves := inferInstanceAs (Decidable (∃ _ ∈ _, _))

/-! ## One call -/

variable {f : Opening} {g : Option Registering}

/-- What is kept is what is registered, and not as a closed entry. -/
theorem call_keeps {l : SockLbl} (h : l.call = some (f, g)) :
    f.keeps = g.isSome ∧ ∀ r ∈ g, r.type ≠ .null := by
  cases l with
  | listen a idx addr =>
    cases h
    simp [safeSocketListen]
  | accept a idx addr =>
    cases h
    simp [safeTcpAccept]
  | join a idx =>
    cases h
    simp [mcastCliInit]
  | connect a addr =>
    unfold SockLbl.call at h
    simp only [Option.ite_none_right_eq_some] at h
    cases h.2
    simp [safeTcpConnect]
  | syn a =>
    cases h
    simp [sendPkgToMcast]
  | close fd => cases h

/-- **What a call does**: it leaves all as it was, or a descriptor behind, or registers one. -/
theorem call_cases (hkeeps : f.keeps = g.isSome) (s : SockSt) :
    s.call f g = s ∧ ¬ f.Leaves g ∨
      (∃ fd ∈ f.socket, f.Leaves g ∧ s.call f g = { s with opened := fd :: s.opened }) ∨
      ∃ fd ∈ f.socket, ∃ r ∈ g, ¬ f.Leaves g ∧
        s.call f g = { ep := addFdinfo fd r.idx r.type r.addr s.ep, opened := fd :: s.opened } := by
  rcases f with ⟨closes, keeps, socket, calls⟩
  subst hkeeps
  cases socket with
  | none =>
    left
    simp [SockSt.call, Opening.run, Opening.Leaves]
  | some fd =>
    -- a descriptor has been made: do the calls on it all succeed?
    cases hall : calls.all id with
    | false =>
      cases closes with
      | true =>
        left
        simp [SockSt.call, Opening.run, Opening.Leaves, hall]
      | false =>
        right
        left
        exact ⟨fd, rfl, by simp [Opening.Leaves, hall], by simp [SockSt.call, Opening.run, hall]⟩
    | true =>
      cases g with
      | none =>
        left
        simp [SockSt.call, Opening.run, Opening.Leaves, hall]
      | some r =>
        right
        -- what is left is whether the table takes the descriptor
        have hleaves : Opening.Leaves ⟨closes, true, some fd, calls⟩ (some r) ↔ ¬ r.Takes fd := by
          simp [Opening.Leaves, hall]
        have hcall : s.call ⟨closes, true, some fd, calls⟩ (some r) =
            if r.asks = true → 0 < fd then
              { ep := (addFdinfoToEpinfo r.ctl fd r.idx r.type r.addr s.ep).2
                opened := fd :: s.opened }
            else { s with opened := fd :: s.opened } := by
          simp [SockSt.call, Opening.run, hall]
        by_cases htakes : r.Takes fd
        · right
          refine ⟨fd, rfl, r, rfl, fun h => hleaves.mp h htakes, ?_⟩
          refine hcall.trans ((if_pos htakes.1).trans ?_)
          rw [htakes.2]
          rfl
        · left
          refine ⟨fd, rfl, hleaves.mpr htakes, hcall.trans ?_⟩
          by_cases hasks : r.asks = true → 0 < fd
          · have hctl : r.ctl = false := by
              rw [← Bool.not_eq_true]
              exact fun hctl => htakes ⟨hasks, hctl⟩
            rw [if_pos hasks, hctl]
            rfl
          · rw [if_neg hasks]

/-! ## Runs -/

/-- The open descriptors are those in `base`, those registered, and `n` more. -/
structure Custody (limit : Nat) (base : List Nat) (n : Nat) (s : SockSt) : Prop where
  parts : ∃ regs stray : List Nat, (∀ fd, fd ∈ regs ↔ 0 < fd ∧ Registered s.ep fd) ∧
    stray.length = n ∧ s.opened.Perm (base ++ regs ++ stray)
  nodup : s.opened.Nodup
  limit : s.opened.length ≤ limit

variable {limit n : Nat} {base : List Nat} {s t : SockSt}

/-- A descriptor is left behind. -/
theorem Custody.leave (h : Custody limit base n s) {fd : Nat} (hfree : fd ∉ s.opened)
    (hroom : s.opened.length < limit) :
    Custody limit base (n + 1) { s with opened := fd :: s.opened } := by
  rcases h.parts with ⟨regs, stray, hregs, hn, hperm⟩
  refine ⟨⟨regs, fd :: stray, hregs, ?_, ?_⟩, List.nodup_cons.mpr ⟨hfree, h.nodup⟩, hroom⟩
  · rw [List.length_cons, hn]
  · exact (hperm.cons fd).trans List.perm_middle.symm

/-- A descriptor is registered. -/
theorem Custody.register (h : Custody limit base n s) (hzero : 0 ∈ base) {fd : Nat}
    (hfree : fd ∉ s.opened) (hroom : s.opened.length < limit) (idx : Int) {type : FdType}
    (htype : type ≠ .null) (addr : FdAddr) :
    Custody limit base n
      { ep := addFdinfo fd idx type addr s.ep, opened := fd :: s.opened } := by
  rcases h.parts with ⟨regs, stray, hregs, hn, hperm⟩
  have hpos : 0 < fd := by
    rcases Nat.eq_zero_or_pos fd with heq | hpos
    · rw [heq] at hfree
      exact absurd (hperm.mem_iff.mpr (by simp [hzero])) hfree
    · exact hpos
  -- only its own entry changes
  have hreg : ∀ m, Registered (addFdinfo fd idx type addr s.ep) m ↔
      m = fd ∨ Registered s.ep m := by
    intro m
    unfold Registered
    rw [(addFdinfo_frame fd idx type addr s.ep).1]
    by_cases heq : m = fd
    · rw [heq, Function.update_self]
      exact ⟨fun _ => Or.inl rfl, fun _ => ⟨htype, rfl⟩⟩
    · rw [Function.update_of_ne heq]
      exact ⟨Or.inr, fun hor => hor.resolve_left heq⟩
  refine ⟨⟨fd :: regs, stray, fun m => ?_, hn, ?_⟩, List.nodup_cons.mpr ⟨hfree, h.nodup⟩, hroom⟩
  · rw [List.mem_cons, hregs, hreg]
    constructor
    · rintro (heq | ⟨hm, hor⟩)
      · exact ⟨heq ▸ hpos, Or.inl heq⟩
      · exact ⟨hm, Or.inr hor⟩
    · rintro ⟨hm, heq | hor⟩
      · exact Or.inl heq
      · exact Or.inr ⟨hm, hor⟩
  · rw [List.append_assoc] at hperm ⊢
    exact (hperm.cons fd).trans List.perm_middle.symm

/-- A registered descriptor is closed. -/
theorem Custody.close (h : Custody limit base n s) {fd : Nat} (hpos : 0 < fd)
    (hreg : Registered s.ep fd) {ep : EpInfo} (hclose : closeFd fd s.ep = some ep) :
    Custody limit base n { ep := ep, opened := s.opened.erase fd } := by
  rcases h.parts with ⟨regs, stray, hregs, hn, hperm⟩
  have hclosed : Closed fd s.ep ep := by
    unfold closeFd at hclose
    rw [if_neg hreg.1] at hclose
    exact closeSlot_closed hclose
  have hstays : ∀ m, Registered ep m ↔ m ≠ fd ∧ Registered s.ep m := by
    intro m
    unfold Registered
    by_cases heq : m = fd
    · rcases hclosed.self with ⟨flag, hself⟩
      rw [heq, hself]
      exact ⟨fun hand => absurd rfl hand.1, fun hand => absurd rfl hand.1⟩
    · rw [hclosed.other m heq]
      exact ⟨fun hand => ⟨heq, hand⟩, fun hand => hand.2⟩
  -- it is in the middle part only
  have hnodup := hperm.nodup_iff.mp h.nodup
  rw [List.append_assoc, List.nodup_append] at hnodup
  rcases hnodup with ⟨_, hright, hapart⟩
  have hmem : fd ∈ regs := (hregs fd).mpr ⟨hpos, hreg⟩
  have hbase : fd ∉ base :=
    fun hfd => hapart fd hfd fd (List.mem_append_left _ hmem) rfl
  refine ⟨⟨regs.erase fd, stray, fun m => ?_, hn, ?_⟩, h.nodup.erase fd, ?_⟩
  · rw [(List.nodup_append.mp hright).1.mem_erase_iff, hregs, hstays]
    exact ⟨fun ⟨hne, hm, hr⟩ => ⟨hm, hne, hr⟩, fun ⟨hm, hne, hr⟩ => ⟨hne, hm, hr⟩⟩
  · have herase := hperm.erase fd
    rw [List.erase_append_left _ (List.mem_append_right _ hmem),
      List.erase_append_right _ hbase] at herase
    exact herase
  · exact (List.length_erase_le).trans h.limit

/-- **One step**: one more is left behind, or none. -/
theorem sockStep_accounted {l : SockLbl} (hzero : 0 ∈ base) (h : Custody limit base n s)
    (hstep : sockStep limit l s = some t) :
    Custody limit base (n + if l.Leaves then 1 else 0) t := by
  unfold sockStep at hstep
  cases hcall : l.call with
  | some c =>
    rcases c with ⟨f, g⟩
    rw [hcall] at hstep
    simp only [Option.ite_none_right_eq_some] at hstep
    rcases hstep with ⟨hkernel, hstep⟩
    have hleaves : l.Leaves ↔ f.Leaves g := by
      unfold SockLbl.Leaves
      rw [hcall]
      simp
    rcases call_keeps hcall with ⟨hkeeps, htype⟩
    rw [← Option.some.inj hstep]
    rcases call_cases hkeeps s with ⟨heq, hno⟩ | ⟨fd, hfd, hyes, heq⟩ |
      ⟨fd, hfd, r, hr, hno, heq⟩
    · rw [heq, if_neg (mt hleaves.mp hno)]
      exact h
    · rw [heq, if_pos (hleaves.mpr hyes)]
      exact h.leave (hkernel fd hfd).1 (hkernel fd hfd).2
    · rw [heq, if_neg (mt hleaves.mp hno)]
      exact h.register hzero (hkernel fd hfd).1 (hkernel fd hfd).2 r.idx (htype r hr) r.addr
  | none =>
    have hno : ¬ l.Leaves := by
      unfold SockLbl.Leaves
      rw [hcall]
      simp
    rw [hcall] at hstep
    rw [if_neg hno]
    cases l with
    | close fd =>
      simp only [Option.ite_none_right_eq_some] at hstep
      rcases hstep with ⟨⟨hpos, hreg⟩, hstep⟩
      rcases Option.map_eq_some_iff.mp hstep with ⟨ep, hclose, heq⟩
      rw [← heq]
      exact h.close hpos hreg hclose
    | _ =>
      cases hstep
      exact h

/-- At first there are those that the process had. -/
theorem sockInit_accounted (hbase : base.Nodup) (hlimit : base.length ≤ limit) :
    Custody limit base 0 (sockInit base) := by
  refine ⟨⟨[], [], fun fd => ?_, rfl, ?_⟩, hbase, hlimit⟩
  · -- the zeroed entries say that they are that of descriptor 0
    constructor
    · intro hfd
      cases hfd
    · rintro ⟨hpos, _, hfd⟩
      have hzero : ((epInit).fds fd).fd = 0 := rfl
      have hcast : (fd : Int) = 0 := hfd.symm.trans hzero
      omega
  · rw [List.append_nil, List.append_nil]
    exact List.Perm.refl _

/-- **The descriptors of a process**: in every run the open ones are those it had, the registered
ones, and one for each call that has left one behind, all different and within the limit. -/
theorem sockets_accounted (hbase : base.Nodup) (hzero : 0 ∈ base) (hlimit : base.length ≤ limit)
    {ls : List SockLbl} (hrun : exec (sockStep limit) ls (sockInit base) = some s) :
    Custody limit base (ls.countP fun l => l.Leaves) s := by
  have hall : ∀ (ls : List SockLbl) (n : Nat) (s t : SockSt), Custody limit base n s →
      exec (sockStep limit) ls s = some t →
      Custody limit base (n + ls.countP fun l => l.Leaves) t := by
    intro ls
    induction ls with
    | nil =>
      intro n s t h ht
      cases ht
      exact h
    | cons l ls ih =>
      intro n s t h ht
      rcases exec_cons_some.mp ht with ⟨m, hm, hrest⟩
      have hnext := ih _ m t (sockStep_accounted hzero h hm) hrest
      rw [List.countP_cons]
      simp only [decide_eq_true_eq]
      rwa [Nat.add_assoc, Nat.add_comm (if l.Leaves then 1 else 0)] at hnext
  have hend := hall ls 0 _ s (sockInit_accounted hbase hlimit) hrun
  rwa [Nat.zero_add] at hend

/-- A master listens, accepts a client that `epoll_ctl` refuses, and closes the listener. -/
def refusedClient : List SockLbl :=
  [.listen ⟨some 3, true, true, true, true, true, true⟩ 0 ⟨0, 0⟩,
    .accept ⟨some 4, true, false⟩ 0 ⟨0, 0⟩, .close 3]

/-- A client that cannot be registered, in a process with room for two more descriptors. -/
theorem sockets_accounted_refusedClient :
    ∃ s, exec (sockStep 5) refusedClient (sockInit [0, 1, 2]) = some s ∧
      Custody 5 [0, 1, 2] (refusedClient.countP fun l => l.Leaves) s := by
  have hsome : (exec (sockStep 5) refusedClient (sockInit [0, 1, 2])).isSome := by
    decide +kernel
  rcases Option.isSome_iff_exists.mp hsome with ⟨s, hrun⟩
  exact ⟨s, hrun, sockets_accounted (by decide) (by decide) (by decide) hrun⟩

end SServer.Net
