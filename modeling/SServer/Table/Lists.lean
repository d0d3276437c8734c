import SServer.Lib.Run
import SServer.Table.EpInfo

/-!
# SServer.Table.Lists — the readlist, the closelist and the flags

That an entry waits in the readlist or in the closelist is written down twice: in
the links of its node and in its flag. The functions that link and unlink nodes
keep the two together. `add_fdinfo_to_epinfo` clears the flag and `start_work`
closes descriptors without a look at either.

* `Listed`: the invariant: each list is a ring through its head, and an entry is in it exactly
  when its flag says so.
* `Listed.relink`, `Listed.add`, `Listed.del`: linking and unlinking keep it.
* `tableStep_cases`: one step, on either side of its condition.
* `filed_iff_none_waits`: the result, over whole runs.
* `stoppedFull_not_filed`: a restart while a client of the worker waits in the readlist: its
  node stays linked.

What the loops do with an entry on a list is in `SServer.Table.Dispatch`.
-/

namespace SServer.Table

open SServer.Lib SServer.Net

/-! ## What is to hold -/

/-- The head of each list. -/
def CacheType.head : CacheType → Node
  | .read => .readlist
  | .close => .closelist

/-- The entry of `n` is in use for the descriptor `n`. -/
def Registered (ep : EpInfo) (n : Nat) : Prop := (ep.fds n).type ≠ .null ∧ (ep.fds n).fd = n

instance (ep : EpInfo) (n : Nat) : Decidable (Registered ep n) :=
  inferInstanceAs (Decidable (_ ∧ _))

/-- The two lists hold the entries `xs`, each once, and these are the ones flagged. -/
structure Listed (ep : EpInfo) (xs : CacheType → List Nat) : Prop where
  ring : ∀ k, IsList ep.links k.head ((xs k).map .slot)
  flag : ∀ k n, n ∈ xs k ↔ (ep.fds n).flag = k.code

/-- An entry is linked in a list exactly when its flag says so, once, and is then that
of a registered descriptor. -/
def Filed (ep : EpInfo) : Prop :=
  ∃ xs, Listed ep xs ∧ ∀ k, ∀ n ∈ xs k, Registered ep n

/-- The two flags differ. -/
theorem code_injective {k k' : CacheType} (h : k.code = k'.code) : k = k' := by
  cases k with
  | read =>
    cases k' with
    | read => rfl
    | close => cases h
  | close =>
    cases k' with
    | read => cases h
    | close => rfl

/-- No entry is in both lists. -/
theorem Listed.not_both {ep : EpInfo} {xs : CacheType → List Nat} (h : Listed ep xs)
    {k k' : CacheType} {n : Nat} (hn : n ∈ xs k) (hn' : n ∈ xs k') : k = k' := by
  apply code_injective
  rw [← (h.flag k n).mp hn]
  exact (h.flag k' n).mp hn'

/-- The invariant: besides, a flag is clear or one of the two bits. -/
structure FiledInv (ep : EpInfo) : Prop where
  filed : Filed ep
  flags : ∀ n, (ep.fds n).flag = 0 ∨ ∃ k : CacheType, (ep.fds n).flag = k.code

/-- The two lists of a zeroed table are empty. -/
theorem epInit_filed : FiledInv epInit := by
  refine ⟨⟨fun _ => [], ⟨fun k => ?_, fun k n => ?_⟩, fun k n hn => ?_⟩, fun n => Or.inl rfl⟩
  · cases k with
    | read =>
      refine (isList_init ⟨fun _ => none, fun _ => none⟩ Node.readlist).congr fun m hm => ?_
      have hne : m ≠ Node.closelist := by
        rw [List.mem_singleton.mp hm]
        simp
      constructor
      · exact Function.update_of_ne hne _ _
      · exact Function.update_of_ne hne _ _
    | close => exact isList_init _ _
  · constructor
    · intro hn
      cases hn
    · intro hflag
      cases k with
      | read => cases hflag
      | close => cases hflag
  · cases hn

/-! ## Linking and unlinking -/

/-- Each entry has its node. -/
theorem slot_injective : Function.Injective Node.slot := by
  intro m n h
  cases h
  rfl

/-- No head is an entry's node. -/
theorem head_ne_slot (k : CacheType) (n : Nat) : k.head ≠ .slot n := by
  cases k with
  | read => simp [CacheType.head]
  | close => simp [CacheType.head]

/-- Each list has its head. -/
theorem head_injective : Function.Injective CacheType.head := by
  intro k k' h
  cases k with
  | read =>
    cases k' with
    | read => rfl
    | close => cases h
  | close =>
    cases k' with
    | read => cases h
    | close => rfl

/-- A node of one list is not a node of the other, nor its head. -/
theorem Listed.apart {ep : EpInfo} {xs : CacheType → List Nat} (h : Listed ep xs)
    {k k' : CacheType} (hne : k' ≠ k) :
    ∀ m ∈ k'.head :: (xs k').map .slot, m ∉ k.head :: (xs k).map .slot := by
  intro m hm hm'
  rcases List.mem_cons.mp hm with hhead | hslot
  · rcases List.mem_cons.mp hm' with hhead' | hslot'
    · exact hne (head_injective (hhead.symm.trans hhead'))
    · rcases List.mem_map.mp hslot' with ⟨n, _, heq⟩
      exact head_ne_slot k' n (hhead.symm.trans heq.symm)
  · rcases List.mem_map.mp hslot with ⟨n, hn, heq⟩
    rcases List.mem_cons.mp hm' with hhead' | hslot'
    · exact head_ne_slot k n (hhead'.symm.trans heq.symm)
    · rcases List.mem_map.mp hslot' with ⟨n', hn', heq'⟩
      rw [← slot_injective (heq.trans heq'.symm)] at hn'
      exact hne (h.not_both hn hn')

/-- One flag changes. -/
theorem relink_flag (ep : EpInfo) (fd n : Nat) (flag : UInt8) (links : ListHead Node) :
    ((ep.relink fd flag links).fds n).flag = if n = fd then flag else (ep.fds n).flag := by
  by_cases hn : n = fd
  · rw [hn, if_pos rfl]
    exact congrArg FdWrap.flag (setFd_self ep fd _)
  · rw [if_neg hn]
    exact congrArg FdWrap.flag (setFd_other ep hn _)

/-- **An entry changes its flag and its links**, and one list with it. -/
theorem Listed.relink {ep : EpInfo} {xs : CacheType → List Nat} (h : Listed ep xs) (k : CacheType)
    {fd : Nat} {flag : UInt8} {links : ListHead Node} {ys : List Nat}
    (hring : IsList links k.head (ys.map .slot))
    (hothers : ∀ k', k' ≠ k → IsList links k'.head ((xs k').map .slot))
    (hflag : ∀ n, n ∈ ys ↔ (if n = fd then flag else (ep.fds n).flag) = k.code)
    (hno : ∀ k', k' ≠ k → fd ∉ xs k' ∧ flag ≠ k'.code) :
    Listed (ep.relink fd flag links) (Function.update xs k ys) := by
  constructor
  · intro k'
    by_cases hk : k' = k
    · rw [hk, Function.update_self]
      exact hring
    · rw [Function.update_of_ne hk]
      exact hothers k' hk
  · intro k' n
    rw [relink_flag]
    by_cases hk : k' = k
    · rw [hk, Function.update_self]
      exact hflag n
    · rw [Function.update_of_ne hk]
      rcases hno k' hk with ⟨hnot, hcode⟩
      by_cases hn : n = fd
      · rw [if_pos hn, hn]
        exact ⟨fun hmem => absurd hmem hnot, fun heq => absurd heq hcode⟩
      · rw [if_neg hn]
        exact h.flag k' n

/-- **Linking** an entry that is in no list. -/
theorem Listed.add {ep : EpInfo} {xs : CacheType → List Nat} (h : Listed ep xs) (k : CacheType)
    {fd : Nat} (hflag : (ep.fds fd).flag = 0) :
    ∃ links, listAddTail (.slot fd) k.head ep.links = some links ∧
      Listed (ep.relink fd k.code links) (Function.update xs k (xs k ++ [fd])) := by
  have hfree : ∀ k, fd ∉ xs k := by
    intro k hmem
    have hcode := (h.flag k fd).mp hmem
    rw [hflag] at hcode
    cases k with
    | read => cases hcode
    | close => cases hcode
  have hnew : ∀ k, Node.slot fd ∉ k.head :: (xs k).map .slot := by
    intro k hmem
    rcases List.mem_cons.mp hmem with hhead | hslot
    · exact head_ne_slot k fd hhead.symm
    · rcases List.mem_map.mp hslot with ⟨n, hn, heq⟩
      rw [slot_injective heq] at hn
      exact hfree k hn
  rcases listAddTail_spec (h.ring k) (hnew k) with ⟨links, hlinks, hring, hframe⟩
  refine ⟨links, hlinks, h.relink k ?_ (fun k' hk => ?_) (fun n => ?_) (fun k' hk => ?_)⟩
  · rw [List.map_append]
    exact hring
  · -- the other list has no link of this one
    refine (h.ring k').congr fun m hm => hframe m fun hmem => ?_
    rcases List.mem_cons.mp hmem with heq | hmem
    · rw [heq] at hm
      exact hnew k' hm
    · exact h.apart hk m hm hmem
  · rw [List.mem_append, List.mem_singleton]
    by_cases hn : n = fd
    · rw [if_pos hn]
      exact ⟨fun _ => rfl, fun _ => Or.inr hn⟩
    · rw [if_neg hn, h.flag k n]
      exact ⟨fun hor => hor.resolve_right hn, Or.inl⟩
  · exact ⟨hfree k', fun heq => hk (code_injective heq.symm)⟩

/-- **Unlinking** an entry from its list. -/
theorem Listed.del {ep : EpInfo} {xs : CacheType → List Nat} (h : Listed ep xs) (k : CacheType)
    {fd : Nat} (hflag : (ep.fds fd).flag = k.code) :
    ∃ links, listDelInit (.slot fd) ep.links = some links ∧
      Listed (ep.relink fd 0 links) (Function.update xs k ((xs k).erase fd)) := by
  have hmem : fd ∈ xs k := (h.flag k fd).mpr hflag
  have hnodup : (xs k).Nodup := by
    have hcons := (h.ring k).2
    exact List.Nodup.of_map _ (List.nodup_cons.mp hcons).2
  have hslot : Node.slot fd ∈ (xs k).map .slot := List.mem_map.mpr ⟨fd, hmem, rfl⟩
  rcases listDelInit_spec (h.ring k) hslot with ⟨links, hlinks, hring, hframe⟩
  have hzero : ∀ k : CacheType, (0 : UInt8) ≠ k.code := by
    intro k heq
    cases k with
    | read => cases heq
    | close => cases heq
  refine ⟨links, hlinks, h.relink k ?_ (fun k' hk => ?_) (fun n => ?_) (fun k' hk => ?_)⟩
  · rw [List.map_erase slot_injective]
    exact hring
  · exact (h.ring k').congr fun m hm => hframe m (h.apart hk m hm)
  · rw [hnodup.mem_erase_iff]
    by_cases hn : n = fd
    · rw [if_pos hn]
      exact ⟨fun hand => absurd hn hand.1, fun heq => absurd heq (hzero k)⟩
    · rw [if_neg hn, ← h.flag k n]
      exact ⟨fun hand => hand.2, fun hin => ⟨hn, hin⟩⟩
  · exact ⟨fun hin => hk (h.not_both hin hmem), hzero k'⟩

/-! ## The operations -/

/-- A flag has a bit exactly if it is that bit. -/
theorem FiledInv.bit {ep : EpInfo} (h : FiledInv ep) (n : Nat) (k : CacheType) :
    (ep.fds n).flag &&& k.code ≠ 0 ↔ (ep.fds n).flag = k.code := by
  rcases h.flags n with hzero | ⟨k', hk'⟩
  · rw [hzero]
    cases k with
    | read => decide
    | close => decide
  · rw [hk']
    cases k with
    | read =>
      cases k' with
      | read => decide
      | close => decide
    | close =>
      cases k' with
      | read => decide
      | close => decide

/-- A new flag leaves a descriptor registered. -/
theorem Reflagged.registered {fd : Nat} {ep ep' : EpInfo} (h : Reflagged fd ep ep') (n : Nat) :
    Registered ep' n ↔ Registered ep n := by
  unfold Registered
  by_cases hn : n = fd
  · rcases h.self with ⟨flag, hself⟩
    rw [hn, hself]
  · rw [h.other n hn]

/-- The invariant of an entry that has changed its flag and its links. -/
theorem FiledInv.relink {ep : EpInfo} (h : FiledInv ep) {xs : CacheType → List Nat} {fd : Nat}
    {flag : UInt8} {links : ListHead Node} (hxs : Listed (ep.relink fd flag links) xs)
    (hall : ∀ k n, n ∈ xs k → Registered ep n) (hflag : flag = 0 ∨ ∃ k : CacheType, flag = k.code) :
    FiledInv (ep.relink fd flag links) := by
  refine ⟨⟨xs, hxs, fun k n hn => ?_⟩, fun n => ?_⟩
  · rw [(relink_reflags ep fd flag links).registered]
    exact hall k n hn
  · rw [relink_flag]
    by_cases hn : n = fd
    · rw [if_pos hn]
      exact hflag
    · rw [if_neg hn]
      exact h.flags n

/-- Linking a registered entry. -/
theorem FiledInv.add {ep : EpInfo} (h : FiledInv ep) (k : CacheType) {fd : Nat}
    (hflag : (ep.fds fd).flag = 0) (hreg : Registered ep fd) :
    ∃ links, listAddTail (.slot fd) k.head ep.links = some links ∧
      FiledInv (ep.relink fd k.code links) := by
  rcases h.filed with ⟨xs, hxs, hall⟩
  rcases hxs.add k hflag with ⟨links, hlinks, hxs'⟩
  refine ⟨links, hlinks, h.relink hxs' (fun k' n hn => ?_) (Or.inr ⟨k, rfl⟩)⟩
  by_cases hk : k' = k
  · rw [hk, Function.update_self] at hn
    rcases List.mem_append.mp hn with hold | hnew
    · exact hall k n hold
    · rw [List.mem_singleton.mp hnew]
      exact hreg
  · rw [Function.update_of_ne hk] at hn
    exact hall k' n hn

/-- Unlinking a linked entry. -/
theorem FiledInv.del {ep : EpInfo} (h : FiledInv ep) (k : CacheType) {fd : Nat}
    (hflag : (ep.fds fd).flag = k.code) :
    ∃ links, listDelInit (.slot fd) ep.links = some links ∧
      FiledInv (ep.relink fd 0 links) := by
  rcases h.filed with ⟨xs, hxs, hall⟩
  rcases hxs.del k hflag with ⟨links, hlinks, hxs'⟩
  refine ⟨links, hlinks, h.relink hxs' (fun k' n hn => ?_) (Or.inl rfl)⟩
  by_cases hk : k' = k
  · rw [hk, Function.update_self] at hn
    exact hall k n (List.mem_of_mem_erase hn)
  · rw [Function.update_of_ne hk] at hn
    exact hall k' n hn

/-- `do_del_from_readlist` and `do_del_from_closelist`. -/
theorem FiledInv.delIf {ep : EpInfo} (h : FiledInv ep) (k : CacheType) (fd : Nat) :
    ∃ ep', (if (ep.fds fd).flag &&& k.code ≠ 0 then
        (listDelInit (.slot fd) ep.links).map (ep.relink fd 0) else some ep) = some ep' ∧
      FiledInv ep' ∧
      (ep'.fds fd).flag = if (ep.fds fd).flag = k.code then 0 else (ep.fds fd).flag := by
  by_cases hbit : (ep.fds fd).flag &&& k.code ≠ 0
  · have hflag := (h.bit fd k).mp hbit
    rcases h.del k hflag with ⟨links, hlinks, hinv⟩
    rw [if_pos hbit, hlinks]
    refine ⟨_, rfl, hinv, ?_⟩
    rw [relink_flag, if_pos rfl, if_pos hflag]
  · rw [if_neg hbit]
    refine ⟨ep, rfl, h, ?_⟩
    rw [if_neg fun heq => hbit ((h.bit fd k).mpr heq)]

/-- To take an entry off the readlist keeps the lists, whether it is on it or not. -/
theorem doDelFromReadlist_keeps {ep : EpInfo} (h : FiledInv ep) (fd : Nat) :
    ∃ ep', doDelFromReadlist fd ep = some ep' ∧ FiledInv ep' := by
  rcases h.delIf .read fd with ⟨ep', hop, hinv, _⟩
  exact ⟨ep', hop, hinv⟩

/-- So does to take it off the closelist. -/
theorem doDelFromCloselist_keeps {ep : EpInfo} (h : FiledInv ep) (fd : Nat) :
    ∃ ep', doDelFromCloselist fd ep = some ep' ∧ FiledInv ep' := by
  rcases h.delIf .close fd with ⟨ep', hop, hinv, _⟩
  exact ⟨ep', hop, hinv⟩

/-- A registered entry is put on the readlist, unless it is on a list already. -/
theorem doAddToReadlist_keeps {fd : Nat} {ep : EpInfo} (h : FiledInv ep)
    (hreg : Registered ep fd) : ∃ ep', doAddToReadlist fd ep = some ep' ∧ FiledInv ep' := by
  unfold doAddToReadlist
  by_cases hflag : (ep.fds fd).flag = 0
  · rcases h.add .read hflag hreg with ⟨links, hlinks, hinv⟩
    have hadd : listAddTail (.slot fd) Node.readlist ep.links = some links := hlinks
    rw [if_pos hflag, hadd, hflag]
    exact ⟨_, rfl, hinv⟩
  · rw [if_neg hflag]
    exact ⟨ep, rfl, h⟩

/-- The same for the closelist. -/
theorem doAddToCloselist_keeps {fd : Nat} {ep : EpInfo} (h : FiledInv ep)
    (hreg : Registered ep fd) : ∃ ep', doAddToCloselist fd ep = some ep' ∧ FiledInv ep' := by
  unfold doAddToCloselist
  rcases h.delIf .read fd with ⟨m, hm, hinv, hnot⟩
  have hdel : doDelFromReadlist fd ep = some m := hm
  have hreg' := ((doDelFromReadlist_reflags hdel).registered fd).mpr hreg
  rw [hdel, Option.bind_some]
  by_cases hbit : (m.fds fd).flag &&& CacheType.close.code = 0
  · have hflag : (m.fds fd).flag = 0 := by
      rcases h.flags fd with hzero | ⟨k, hk⟩
      · rw [hnot, hzero]
        rfl
      · rw [hnot, hk]
        cases k with
        | read => rfl
        | close =>
          rw [hnot, hk] at hbit
          cases hbit
    rcases hinv.add .close hflag hreg' with ⟨links, hlinks, hinv'⟩
    have hadd : listAddTail (.slot fd) Node.closelist m.links = some links := hlinks
    rw [if_pos hbit, hadd, hflag]
    exact ⟨_, rfl, hinv'⟩
  · rw [if_neg hbit]
    exact ⟨m, rfl, hinv⟩

/-- Behind both removals an entry is in no list. -/
theorem doDel_both {ep : EpInfo} (h : FiledInv ep) (fd : Nat) :
    ∃ ep', (doDelFromReadlist fd ep).bind (doDelFromCloselist fd) = some ep' ∧ FiledInv ep' ∧
      (ep'.fds fd).flag = 0 := by
  rcases h.delIf .read fd with ⟨m, hm, hinv, hread⟩
  rcases hinv.delIf .close fd with ⟨m', hm', hinv', hclose⟩
  have hdel : doDelFromReadlist fd ep = some m := hm
  rw [hdel, Option.bind_some]
  refine ⟨m', hm', hinv', ?_⟩
  rw [hclose, hread]
  rcases h.flags fd with hzero | ⟨k, hk⟩
  · rw [hzero]
    rfl
  · rw [hk]
    cases k with
    | read => rfl
    | close => rfl

/-- What does not touch the links, the flags and the linked entries keeps the lists. -/
theorem FiledInv.congr {ep ep' : EpInfo} (h : FiledInv ep) (hlinks : ep'.links = ep.links)
    (hflags : ∀ n, (ep'.fds n).flag = (ep.fds n).flag)
    (hreg : ∀ n, (ep.fds n).flag ≠ 0 → Registered ep n → Registered ep' n) : FiledInv ep' := by
  rcases h.filed with ⟨xs, hxs, hall⟩
  refine ⟨⟨xs, ⟨fun k => ?_, fun k n => ?_⟩, fun k n hn => ?_⟩, fun n => ?_⟩
  · rw [hlinks]
    exact hxs.ring k
  · rw [hflags]
    exact hxs.flag k n
  · refine hreg n ?_ (hall k n hn)
    rw [(hxs.flag k n).mp hn]
    cases k with
    | read => decide
    | close => decide
  · rw [hflags]
    exact h.flags n

/-- An entry with a flag is that of a registered descriptor. -/
theorem FiledInv.registered {ep : EpInfo} (h : FiledInv ep) {n : Nat}
    (hflag : (ep.fds n).flag ≠ 0) : Registered ep n := by
  rcases h.filed with ⟨xs, hxs, hall⟩
  rcases h.flags n with hzero | ⟨k, hk⟩
  · exact absurd hzero hflag
  · exact hall k n ((hxs.flag k n).mpr hk)

/-- **`do_fd_close`** unlinks an entry before it nulls it. -/
theorem closeFd_keeps {ep : EpInfo} (h : FiledInv ep) (fd : Nat) :
    ∃ ep', closeFd fd ep = some ep' ∧ FiledInv ep' := by
  unfold closeFd
  by_cases hnull : (ep.fds fd).type = .null
  · rw [if_pos hnull]
    exact ⟨ep, rfl, h⟩
  rw [if_neg hnull]
  rcases doDel_both h fd with ⟨m, hm, hinv, hflag⟩
  unfold closeSlot
  rw [hm]
  refine ⟨_, rfl, hinv.congr ?_ (fun n => ?_) fun n hn hreg => ?_⟩
  · exact (replaceMaxfd_frame fd _).2.2.2
  · rw [(replaceMaxfd_frame fd _).1]
    by_cases heq : n = fd
    · have hself : (freeSlot fd m).fds fd = { m.fds fd with buff := emptyBuff, type := .null } :=
        setFd_self m fd _
      rw [heq, hself]
    · exact congrArg FdWrap.flag (setFd_other m heq _)
  · have hne : n ≠ fd := by
      intro heq
      rw [heq] at hn
      exact hn hflag
    unfold Registered at hreg ⊢
    rw [(replaceMaxfd_frame fd _).1]
    have hsame : (freeSlot fd m).fds n = m.fds n := setFd_other m hne _
    rw [hsame]
    exact hreg

/-- **`add_fdinfo_to_epinfo`** keeps the lists where the descriptor was not registered. -/
theorem addFdinfo_keeps {ep : EpInfo} (h : FiledInv ep) {fd : Nat} (hfree : ¬ Registered ep fd)
    (idx : Int) (type : FdType) (addr : FdAddr) : FiledInv (addFdinfo fd idx type addr ep) := by
  rcases addFdinfo_frame fd idx type addr ep with ⟨hfds, _, hlinks, _⟩
  have hclear : (ep.fds fd).flag = 0 := by
    by_contra hflag
    exact hfree (h.registered hflag)
  refine h.congr hlinks (fun n => ?_) fun n hn hreg => ?_
  · rw [hfds]
    by_cases heq : n = fd
    · rw [heq, Function.update_self, hclear]
      rfl
    · rw [Function.update_of_ne heq]
  · have hne : n ≠ fd := by
      intro heq
      rw [heq] at hn
      exact hn hclear
    unfold Registered at hreg ⊢
    rw [hfds, Function.update_of_ne hne]
    exact hreg

/-! ## Runs of the master -/

/-- What the master does to its table: it registers a descriptor the kernel has given
it, with the success of `epoll_ctl`; reads, and has or has not filled the buffer; puts
a client on the closelist or takes it off; closes a descriptor; or closes, for a worker
that has stopped, what `start_work` closes. -/
inductive TableLbl where
  | add (ctl : Bool) (fd : Nat) (idx : Int) (type : FdType) (addr : FdAddr)
  | read (fd : Nat) (full : Bool)
  | toClose (fd : Nat)
  | offClose (fd : Nat)
  | close (fd : Nat)
  | restart (idx : Int)

/-- One step. The kernel gives no number that is in use, and only a descriptor in use
can be read from. -/
def tableStep : TableLbl → EpInfo → Option EpInfo
  | .add ctl fd idx type addr, ep =>
    if ¬ Registered ep fd then some (addFdinfoToEpinfo ctl fd idx type addr ep).2 else none
  | .read fd full, ep =>
    if Registered ep fd then
      if full then doAddToReadlist fd ep else doDelFromReadlist fd ep
    else none
  | .toClose fd, ep => if Registered ep fd then doAddToCloselist fd ep else none
  | .offClose fd, ep => doDelFromCloselist fd ep
  | .close fd, ep => closeFd fd ep
  | .restart idx, ep => some (closeDownedFds idx ep).1

/-- The condition: no worker is restarted while one of the entries that `start_work`
closes for it waits in a list. -/
def NoneWaits : TableLbl → EpInfo → Prop
  | .restart idx, ep =>
    ∀ n, n < (ep.maxfd + 1).toNat → (ep.fds n).Downed idx → (ep.fds n).flag = 0
  | _, _ => True

/-- **A restart** keeps the lists where none of the closed entries waits; where one
does, it stays linked and is registered no more. -/
theorem closeDownedFds_keeps {ep : EpInfo} (h : FiledInv ep) (idx : Int) :
    NoneWaits (.restart idx) ep ∧ FiledInv (closeDownedFds idx ep).1 ∨
      ¬ NoneWaits (.restart idx) ep ∧ ¬ Filed (closeDownedFds idx ep).1 := by
  rcases closeDowned_frame idx ep (ep.maxfd + 1).toNat with ⟨hfds, _, hlinks⟩
  have hflags : ∀ n, ((closeDownedFds idx ep).1.fds n).flag = (ep.fds n).flag := by
    intro n
    refine (congrArg FdWrap.flag (hfds n)).trans ?_
    split
    · rfl
    · rfl
  by_cases hnone : NoneWaits (.restart idx) ep
  · left
    refine ⟨hnone, h.congr hlinks hflags fun n hn hreg => ?_⟩
    have hkept : (closeDownedFds idx ep).1.fds n = ep.fds n := by
      refine (hfds n).trans (if_neg ?_)
      rintro ⟨hlt, hdown⟩
      exact hn (hnone n hlt hdown)
    unfold Registered at hreg ⊢
    rw [hkept]
    exact hreg
  · right
    refine ⟨hnone, ?_⟩
    rintro ⟨xs, hxs, hall⟩
    simp only [NoneWaits, not_forall] at hnone
    rcases hnone with ⟨n, hlt, hdown, hflag⟩
    rcases h.flags n with hzero | ⟨k, hk⟩
    · exact hflag hzero
    · have hn : n ∈ xs k := by
        rw [hxs.flag k n, hflags, hk]
      have hfd := (hall k n hn).2
      have hgone : (closeDownedFds idx ep).1.fds n = { ep.fds n with fd := -1 } :=
        (hfds n).trans (if_pos ⟨hlt, hdown⟩)
      rw [hgone] at hfd
      simp only at hfd
      omega

/-- **One step**, on either side of its condition. -/
theorem tableStep_cases {l : TableLbl} {ep ep' : EpInfo} (h : FiledInv ep)
    (hstep : tableStep l ep = some ep') :
    NoneWaits l ep ∧ FiledInv ep' ∨ ¬ NoneWaits l ep ∧ ¬ Filed ep' := by
  cases l with
  | add ctl fd idx type addr =>
    left
    simp only [tableStep, Option.ite_none_right_eq_some] at hstep
    rcases hstep with ⟨hfree, hstep⟩
    rw [← Option.some.inj hstep]
    cases ctl with
    | false => exact ⟨trivial, h⟩
    | true => exact ⟨trivial, addFdinfo_keeps h hfree idx type addr⟩
  | read fd full =>
    left
    simp only [tableStep, Option.ite_none_right_eq_some] at hstep
    rcases hstep with ⟨hreg, hstep⟩
    refine ⟨trivial, ?_⟩
    cases full with
    | true =>
      rcases doAddToReadlist_keeps h hreg with ⟨m, hm, hinv⟩
      cases hm.symm.trans hstep
      exact hinv
    | false =>
      rcases doDelFromReadlist_keeps h fd with ⟨m, hm, hinv⟩
      cases hm.symm.trans hstep
      exact hinv
  | toClose fd =>
    left
    simp only [tableStep, Option.ite_none_right_eq_some] at hstep
    rcases hstep with ⟨hreg, hstep⟩
    rcases doAddToCloselist_keeps h hreg with ⟨m, hm, hinv⟩
    cases hm.symm.trans hstep
    exact ⟨trivial, hinv⟩
  | offClose fd =>
    left
    rcases doDelFromCloselist_keeps h fd with ⟨m, hm, hinv⟩
    cases hm.symm.trans hstep
    exact ⟨trivial, hinv⟩
  | close fd =>
    left
    rcases closeFd_keeps h fd with ⟨m, hm, hinv⟩
    cases hm.symm.trans hstep
    exact ⟨trivial, hinv⟩
  -- the only step that closes entries without a look at the lists
  | restart idx =>
    cases hstep
    exact closeDownedFds_keeps h idx

/-- **The lists are in order in every state of a run exactly when** no worker is
restarted while an entry that `start_work` closes for it waits in a list. -/
theorem filed_iff_none_waits (ls : List TableLbl) :
    Throughout tableStep Filed ls epInit ↔ Along tableStep NoneWaits ls epInit := by
  apply throughout_iff_along FiledInv
  · exact fun ep h => h.filed
  · exact fun l ep ep' h hstep => tableStep_cases h hstep
  · exact epInit_filed

/-- A client of worker 1 fills its buffer, and the worker stops. -/
def stoppedFull : List TableLbl :=
  [.add true 5 1 .cli ⟨0, 0⟩, .read 5 true, .restart 1]

/-- The closed client's node is still in the readlist. -/
theorem stoppedFull_not_filed :
    ¬ ∀ (ls : List TableLbl) (ep : EpInfo), exec tableStep ls epInit = some ep → Filed ep := by
  intro hclaim
  have hsome : (exec tableStep stoppedFull epInit).isSome := by decide +kernel
  have hfacts : ∀ ep ∈ exec tableStep stoppedFull epInit,
      (ep.fds 5).flag = CacheType.read.code ∧ (ep.fds 5).fd = -1 := by
    decide +kernel
  rcases Option.isSome_iff_exists.mp hsome with ⟨ep, hrun⟩
  rcases hfacts ep hrun with ⟨hflag, hfd⟩
  rcases hclaim stoppedFull ep hrun with ⟨xs, hxs, hall⟩
  have hreg := (hall .read 5 ((hxs.flag .read 5).mpr hflag)).2
  rw [hfd] at hreg
  cases hreg

end SServer.Table
