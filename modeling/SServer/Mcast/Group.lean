import SServer.Mcast.Datagram

/-!
# SServer.Mcast.Group — the workers of a multicast group

Every worker tells the group of itself when its `next_syn_addr` has passed, and puts what it
hears into its cache. The network loses datagrams, repeats them and changes their order: what
has been sent once may be received by anyone, any number of times, or never. Workers start
and end at any time; a new one has heard of nobody. Requests to reload and other messages
come from outside.

Pipeline shape: the state is the growing set of the datagrams sent, and a member for each
worker that is up.

* `directory_of_heard`: a cache answers with exactly the workers that its owner has heard of,
  with their own addresses, in whatever order and however often.
* `syn_cadence`: a worker neither floods the group nor falls silent.

All workers read one clock. Addresses are never forgotten, as in the source, so a cache may
answer with a worker that has ended.
-/

namespace SServer.Mcast

open SServer.Lib

/-! ## The group -/

/-- A worker of a service. -/
structure Node where
  name : SrvName
  work : Work

/-- A datagram in the network of the workers `ι`. Who sent it, is a history variable: nobody
for what comes from outside. -/
structure Packet (ι : Type) where
  d : List UInt8
  sender : Option ι
deriving DecidableEq

/-- A worker that is up. `heard`, `syns` and `turned` are history: who has been heard of, when
notifications were sent, the last one first, and the time of the last turn of the loop. -/
structure Member (ι : Type) where
  st : McastSt
  nextSyn : UInt32
  heard : List ι
  syns : List Nat
  started : Nat
  turned : Nat

/-- The time, what has been sent so far, and the workers that are up. -/
structure GroupSt (ι : Type) where
  now : Nat
  sent : List (Packet ι)
  up : ι → Option (Member ι)

variable {ι : Type}

/-- The group before the first worker starts. -/
def groupInit : GroupSt ι := { now := 0, sent := [], up := fun _ => none }

/-- A datagram that is received, and what its handler meets. -/
structure Recvd (ι : Type) where
  pkt : Packet ι
  env : CallEnv
  fs : List UInt8 → DlEnv

/-- For the handlers. -/
def Recvd.lbl (p : Recvd ι) : McastLbl := ⟨p.pkt.d, p.env, p.fs⟩

/-- What a worker does, or the world around it. -/
inductive GroupLbl (ι : Type) where
  | clock (t : Nat)
  | start (i : ι) (boot : BootEnv) (mem : Mem)
  | stop (i : ι)
  | turn (i : ι) (sends : Bool) (sbuff : Mem) (r : Nat)
  | recv (i : ι) (ps : List (Recvd ι))
  | other (d : List UInt8)

variable (inetAddr : List UInt8 → UInt32) (nodes : ι → Node)

/-- The notification that a worker sends. -/
def noti (i : ι) (sbuff : Mem) : Packet ι :=
  { d := doSynServAddr inetAddr (nodes i).name sbuff (nodes i).work, sender := some i }

/-- `work_init`: the first notification comes early. -/
def Member.fresh (now : Nat) (boot : BootEnv) (mem : Mem) : Member ι :=
  { st := mcastInit boot mem, nextSyn := UInt32.ofNat (now + 5), heard := [], syns := []
    started := now, turned := now }

/-- `get_now_tv() > next_syn_addr`. -/
def Member.Due (m : Member ι) (now : Nat) : Prop := m.nextSyn.toNat < now

instance (m : Member ι) (now : Nat) : Decidable (m.Due now) := inferInstanceAs (Decidable (_ < _))

/-- The last lines of a turn of `work_dispatch`, with `do_syn_serv_addr` when it is due: it sets
the next time whether or not its packet gets away. -/
def Member.turn (m : Member ι) (now r : Nat) : Member ι :=
  if m.Due now then
    { m with nextSyn := UInt32.ofNat (now + r), syns := now :: m.syns, turned := now }
  else { m with turned := now }

/-- A turn changes neither the cache nor what has been heard. -/
theorem Member.turn_frame (m : Member ι) (now r : Nat) :
    (m.turn now r).st = m.st ∧ (m.turn now r).heard = m.heard ∧
      (m.turn now r).started = m.started ∧ (m.turn now r).turned = now := by
  unfold Member.turn
  split
  · exact ⟨rfl, rfl, rfl, rfl⟩
  · exact ⟨rfl, rfl, rfl, rfl⟩

/-- `do_proc_mcast`, with the datagrams that wait. -/
def Member.recv (n : Node) (m : Member ι) (ps : List (Recvd ι)) : Member ι :=
  { m with
    st := (doProcMcast n.name n.work (ps.map Recvd.lbl) m.st).1
    heard := ps.filterMap (·.pkt.sender) ++ m.heard }

/-- What a turn sends. -/
def turnSends (i : ι) (sends : Bool) (sbuff : Mem) (m : Member ι) (now : Nat) :
    List (Packet ι) :=
  if m.Due now ∧ sends = true then [noti inetAddr nodes i sbuff] else []

/-! ## One datagram -/

section Datagram

variable (name : SrvName) (w : Work) {l : McastLbl}

/-- A notification has its type on the wire. -/
theorem recvInto_type (sender : SrvName) (sbuff rbuf : Mem) (v : Work) :
    recvInto rbuf (doSynServAddr inetAddr sender sbuff v) 4 = McastCmd.servNoti.code := by
  unfold doSynServAddr sendPkgToMcast
  rw [recvInto_bytes rbuf (by decide) (by decide) (by decide)]
  unfold mcastBuff
  rw [memcpy_out (by decide), memcpy_in (by decide)]

/-- A notification is no empty datagram. -/
theorem doSynServAddr_ne_nil (sender : SrvName) (sbuff : Mem) (v : Work) :
    doSynServAddr inetAddr sender sbuff v ≠ [] := by
  intro hnil
  have hlen := congrArg List.length hnil
  unfold doSynServAddr sendPkgToMcast at hlen
  rw [bytes_length] at hlen
  cases hlen

/-- A notification is put into the cache. -/
theorem recvPkg_noti {sender : SrvName} (hfits : sender.chars.length < 32) (sbuff : Mem) (v : Work)
    (hd : l.d = doSynServAddr inetAddr sender sbuff v) (s : McastSt) :
    (recvPkg name w l s).servs =
      addServToCach
        { name := sender.chars
          id := (getServId v).toUInt16.toUInt32
          ip := getServIp inetAddr v
          port := getServPort v } l.env s.servs := by
  have hne : l.d ≠ [] := hd ▸ doSynServAddr_ne_nil inetAddr sender sbuff v
  rw [recvPkg_view name w hne, hd]
  unfold view
  rw [if_pos (recvInto_type inetAddr sender sbuff s.buf v),
    notiCall_doSynServAddr inetAddr sender hfits]
  rfl

/-- Nothing else is. -/
theorem recvPkg_other (hlen : 5 ≤ l.d.length) (htype : ofBytes l.d 4 ≠ McastCmd.servNoti.code)
    (s : McastSt) : (recvPkg name w l s).servs = s.servs := by
  have hne : l.d ≠ [] := by
    intro hnil
    rw [hnil] at hlen
    simp at hlen
  have htake : (4 : Int) < (l.d.take mcastMsgLen).length := by
    rw [List.length_take]
    unfold mcastMsgLen
    omega
  have hno : recvInto s.buf l.d 4 ≠ McastCmd.servNoti.code := by
    have hbyte : ofBytes (l.d.take mcastMsgLen) 4 = ofBytes l.d 4 :=
      ofBytes_take (i := 4) (by decide)
    rw [recvInto_in s.buf (by decide) htake, hbyte]
    exact htype
  rw [recvPkg_view name w hne]
  unfold view
  rw [if_neg hno]
  by_cases hreload : recvInto s.buf l.d 4 = McastCmd.reloadSo.code
  · rw [if_pos hreload]
    rfl
  · rw [if_neg hreload]
    rfl

end Datagram

/-! ## The directory -/

/-- The ids fit the wire and the names the cache. -/
def Node.Fits (n : Node) : Prop := n.name.chars.length ≤ 15 ∧ OnWire n.work

instance (n : Node) : Decidable n.Fits := inferInstanceAs (Decidable (_ ∧ _))

/-- A worker's key: its service and its id. -/
def Node.Named (n : Node) (name : List UInt8) (id : UInt32) : Prop :=
  n.name.chars = name ∧ getServId n.work = id

instance (n : Node) (name : List UInt8) (id : UInt32) : Decidable (n.Named name id) :=
  inferInstanceAs (Decidable (_ ∧ _))

/-- A worker's address. -/
def Node.addr (n : Node) : UInt32 × UInt16 := (getServIp inetAddr n.work, getServPort n.work)

/-- No two workers of a service have one id. -/
def Keyed : Prop := ∀ i k name id, (nodes i).Named name id → (nodes k).Named name id → i = k

/-- **The directory**: the cache holds the workers heard of, and no others. -/
def Directory (heard : List ι) (servs : List ServCach) : Prop :=
  ∀ name id, 0 ∉ name → ∀ a, lookup servs name id = some a ↔
    ∃ k ∈ heard, (nodes k).Named name id ∧ (nodes k).addr inetAddr = a

/-- What a packet is. -/
def PacketOk (p : Packet ι) : Prop :=
  match p.sender with
  | some i => ∃ sbuff, p = noti inetAddr nodes i sbuff
  | none => 5 ≤ p.d.length ∧ ofBytes p.d 4 ≠ McastCmd.servNoti.code

variable {inetAddr nodes}

/-- One more has been heard of. -/
theorem Directory.hear {heard : List ι} {st : McastSt}
    (hdir : Directory inetAddr nodes heard st.servs) (hfit : ∀ i, (nodes i).Fits)
    (hkeyed : Keyed nodes) {p : Packet ι}
    (hp : PacketOk inetAddr nodes p) (name : SrvName) (w : Work) (env : CallEnv)
    (fs : List UInt8 → DlEnv) :
    Directory inetAddr nodes (p.sender.toList ++ heard)
      (recvPkg name w ⟨p.d, env, fs⟩ st).servs := by
  unfold PacketOk at hp
  cases hsender : p.sender with
  | none =>
    rw [hsender] at hp
    rw [recvPkg_other name w hp.1 hp.2]
    exact hdir
  | some i =>
    rw [hsender] at hp
    obtain ⟨sbuff, rfl⟩ := hp
    rcases hfit i with ⟨hshort, hwire⟩
    rw [recvPkg_noti inetAddr name w (by omega) sbuff (nodes i).work rfl]
    intro key id hnz a
    rw [lookup_addServToCach (nodes i).name.noZero (Or.inr (nameKept_of_short hshort env)) id hnz]
    simp only [(onWire_iff _).mp hwire]
    show (if (nodes i).Named key id then some ((nodes i).addr inetAddr) else _) = some a ↔ _
    rw [Option.toList_some, List.singleton_append]
    -- the sender's name is new or its entry replaced; no other name changes
    by_cases hnamed : (nodes i).Named key id
    · rw [if_pos hnamed, Option.some.injEq]
      constructor
      · intro ha
        exact ⟨i, List.mem_cons_self, hnamed, ha⟩
      · rintro ⟨k, _, hk, ha⟩
        rw [hkeyed i k key id hnamed hk]
        exact ha
    · rw [if_neg hnamed, hdir key id hnz a]
      constructor
      · rintro ⟨k, hk, hrest⟩
        exact ⟨k, List.mem_cons_of_mem i hk, hrest⟩
      · rintro ⟨k, hk, hrest⟩
        rcases List.mem_cons.mp hk with rfl | hmem
        · exact absurd hrest.1 hnamed
        · exact ⟨k, hmem, hrest⟩

/-- A directory is one of the set of those heard of. -/
theorem Directory.congr {heard heard' : List ι} {servs : List ServCach}
    (hdir : Directory inetAddr nodes heard servs) (h : ∀ k, k ∈ heard ↔ k ∈ heard') :
    Directory inetAddr nodes heard' servs := by
  intro name id hnz a
  rw [hdir name id hnz a]
  simp only [h]

/-- Nor is any packet of the run. -/
theorem packetOk_ne_nil {p : Packet ι} (hp : PacketOk inetAddr nodes p) : p.d ≠ [] := by
  unfold PacketOk at hp
  cases hsender : p.sender with
  | none =>
    rw [hsender] at hp
    intro hnil
    rw [hnil] at hp
    exact absurd hp.1 (by decide)
  | some i =>
    rw [hsender] at hp
    obtain ⟨sbuff, rfl⟩ := hp
    exact doSynServAddr_ne_nil inetAddr (nodes i).name sbuff (nodes i).work

/-- A batch of datagrams has been heard. -/
theorem Directory.hearAll (hfit : ∀ i, (nodes i).Fits) (hkeyed : Keyed nodes) (name : SrvName)
    (w : Work) {ps : List (Recvd ι)}
    (hps : ∀ p ∈ ps, PacketOk inetAddr nodes p.pkt) {heard : List ι} {st : McastSt}
    (hdir : Directory inetAddr nodes heard st.servs) :
    Directory inetAddr nodes (ps.filterMap (·.pkt.sender) ++ heard)
      (doProcMcast name w (ps.map Recvd.lbl) st).1.servs := by
  induction ps generalizing heard st with
  | nil => exact hdir
  | cons p ps ih =>
    rw [List.forall_mem_cons] at hps
    have hne : p.lbl.d ≠ [] := packetOk_ne_nil hps.1
    have hrest := ih hps.2 (hdir.hear hfit hkeyed hps.1 name w p.env p.fs)
    rw [List.map_cons]
    unfold doProcMcast
    rw [if_neg hne]
    refine hrest.congr fun k => ?_
    rw [List.filterMap_cons]
    cases p.pkt.sender with
    | none => rfl
    | some i =>
      simp only [Option.toList_some, List.mem_append, List.mem_cons, List.not_mem_nil, or_false]
      rw [or_left_comm, or_assoc]

/-- The invariant: every packet is what it should be, every cache a directory, and nobody has
heard of a worker that has not sent. -/
structure GroupInv (inetAddr : List UInt8 → UInt32) (nodes : ι → Node) (s : GroupSt ι) : Prop where
  packets : ∀ p ∈ s.sent, PacketOk inetAddr nodes p
  directory : ∀ i m, s.up i = some m → Directory inetAddr nodes m.heard m.st.servs
  heard : ∀ i m, s.up i = some m → ∀ k ∈ m.heard, ∃ p ∈ s.sent, p.sender = some k

/-- No worker and no datagram. -/
theorem groupInv_init : GroupInv inetAddr nodes groupInit where
  packets := by simp [groupInit]
  directory := by simp [groupInit]
  heard := by simp [groupInit]

/-- Nobody has been heard of in an empty cache. -/
theorem directory_nil : Directory inetAddr nodes [] [] := by
  intro name id _ a
  constructor
  · intro h
    cases h
  · rintro ⟨k, hk, _⟩
    cases hk

/-! ## The timer -/

/-- When the last notification was sent; at first, when the worker started. -/
def Member.lastSyn (m : Member ι) : Nat := m.syns.headD m.started

/-- The timer of a worker. -/
structure Steady (m : Member ι) : Prop where
  apart : m.syns.Pairwise fun t t' => t' + 2 ≤ t
  early : m.syns = [] → m.nextSyn.toNat = m.started + 5
  first : ∀ t ∈ m.syns, m.started + 6 ≤ t
  passed : ∀ t ∈ m.syns, t + 1 ≤ m.nextSyn.toNat
  soon : m.nextSyn.toNat ≤ m.lastSyn + 10
  turned : m.turned ≤ m.nextSyn.toNat

/-- Times that fit stay what they are. -/
theorem u32_ofNat {n : Nat} (h : n < 2 ^ 32) : (UInt32.ofNat n).toNat = n := by
  rw [UInt32.toNat_ofNat']
  exact Nat.mod_eq_of_lt h

/-- A worker that has just started. -/
theorem steady_fresh {now : Nat} (hnow : now + 10 < 2 ^ 32) (boot : BootEnv) (mem : Mem) :
    Steady (Member.fresh now boot mem : Member ι) := by
  have hnext : (Member.fresh now boot mem : Member ι).nextSyn.toNat = now + 5 :=
    u32_ofNat (by omega)
  refine ⟨List.Pairwise.nil, fun _ => hnext, by simp [Member.fresh], by simp [Member.fresh],
    ?_, ?_⟩
  · show _ ≤ now + 10
    omega
  · show now ≤ _
    omega

/-- A turn keeps the timer steady. -/
theorem Steady.turn {m : Member ι} (hm : Steady m) {now r : Nat} (hnow : now + 10 < 2 ^ 32)
    (hlo : 1 ≤ r) (hhi : r ≤ 10) (hstart : m.started ≤ now) : Steady (m.turn now r) := by
  unfold Member.turn
  by_cases hdue : m.Due now
  · rw [if_pos hdue]
    unfold Member.Due at hdue
    have hnext : (UInt32.ofNat (now + r)).toNat = now + r := u32_ofNat (by omega)
    -- the timer has passed, so the last one was two seconds ago
    have hlater : ∀ t ∈ m.syns, t + 2 ≤ now := by
      intro t ht
      have hpassed := hm.passed t ht
      omega
    refine ⟨List.Pairwise.cons hlater hm.apart, fun hnil => (by cases hnil), ?_, ?_, ?_, ?_⟩
    · refine List.forall_mem_cons.mpr ⟨?_, hm.first⟩
      show m.started + 6 ≤ now
      cases hsyns : m.syns with
      | nil =>
        have hearly := hm.early hsyns
        omega
      | cons t ts =>
        have hmem : t ∈ m.syns := hsyns ▸ List.mem_cons_self
        have hfirst := hm.first t hmem
        have hpassed := hm.passed t hmem
        omega
    · refine List.forall_mem_cons.mpr ⟨?_, fun t ht => ?_⟩
      · simp only [hnext]
        omega
      · have hpassed := hlater t ht
        simp only [hnext]
        omega
    · show (UInt32.ofNat (now + r)).toNat ≤ now + 10
      omega
    · show now ≤ (UInt32.ofNat (now + r)).toNat
      omega
  · rw [if_neg hdue]
    unfold Member.Due at hdue
    exact ⟨hm.apart, hm.early, hm.first, hm.passed, hm.soon, Nat.le_of_not_lt hdue⟩

/-! ## Steps -/

variable [DecidableEq ι]

/-- Put a worker up, or down. -/
def GroupSt.setUp (s : GroupSt ι) (i : ι) (m : Option (Member ι)) : GroupSt ι :=
  { s with up := Function.update s.up i m }

variable (inetAddr nodes) in
/-- One step. -/
def groupStep (l : GroupLbl ι) (s : GroupSt ι) : Option (GroupSt ι) :=
  match l with
  | .clock t => if s.now ≤ t then some { s with now := t } else none
  | .start i boot mem =>
    if (s.up i).isNone then some (s.setUp i (some (Member.fresh s.now boot mem))) else none
  | .stop i => some (s.setUp i none)
  | .turn i sends sbuff r =>
    -- `random_range(1, 10)`
    if 1 ≤ r ∧ r ≤ 10 then
      (s.up i).map fun m =>
        { s.setUp i (some (m.turn s.now r)) with
          sent := turnSends inetAddr nodes i sends sbuff m s.now ++ s.sent }
    else none
  | .recv i ps =>
    if ∀ p ∈ ps, p.pkt ∈ s.sent then
      (s.up i).map fun m => s.setUp i (some (m.recv (nodes i) ps))
    else none
  | .other d =>
    -- a whole header, and no notification
    if 5 ≤ d.length ∧ ofBytes d 4 ≠ McastCmd.servNoti.code then
      some { s with sent := ⟨d, none⟩ :: s.sent }
    else none

/-- **What a step does to a member**: nothing, or the member is new, takes a turn or receives. -/
theorem groupStep_member {l : GroupLbl ι} {s t : GroupSt ι}
    (h : groupStep inetAddr nodes l s = some t) {i : ι} {m : Member ι} (hm : t.up i = some m) :
    s.up i = some m ∨
    (∃ boot mem, m = Member.fresh s.now boot mem ∧ t.now = s.now) ∨
    (∃ m₀ r, s.up i = some m₀ ∧ 1 ≤ r ∧ r ≤ 10 ∧ m = m₀.turn s.now r ∧ t.now = s.now) ∨
    ∃ m₀ ps, s.up i = some m₀ ∧ (∀ p ∈ ps, p.pkt ∈ s.sent) ∧ m = m₀.recv (nodes i) ps := by
  -- all but the one the step is about stay as they are
  have hset : ∀ {j : ι} {m' : Option (Member ι)}, (s.setUp j m').up i = some m →
      i = j ∧ m' = some m ∨ s.up i = some m := by
    intro j m' hup
    have hupd : Function.update s.up j m' i = some m := hup
    by_cases hij : i = j
    · rw [hij, Function.update_self] at hupd
      exact Or.inl ⟨hij, hupd⟩
    · rw [Function.update_of_ne hij] at hupd
      exact Or.inr hupd
  unfold groupStep at h
  cases l with
  | clock n =>
    simp only [Option.ite_none_right_eq_some, Option.some.injEq] at h
    rcases h with ⟨_, rfl⟩
    exact Or.inl hm
  | start j boot mem =>
    simp only [Option.ite_none_right_eq_some, Option.some.injEq] at h
    rcases h with ⟨_, rfl⟩
    rcases hset hm with ⟨_, heq⟩ | hold
    · cases heq
      exact Or.inr (Or.inl ⟨boot, mem, rfl, rfl⟩)
    · exact Or.inl hold
  | stop j =>
    cases h
    rcases hset hm with ⟨_, heq⟩ | hold
    · cases heq
    · exact Or.inl hold
  | turn j sends sbuff r =>
    simp only [Option.ite_none_right_eq_some, Option.map_eq_some_iff] at h
    rcases h with ⟨⟨hlo, hhi⟩, m₀, hm₀, rfl⟩
    rcases hset hm with ⟨rfl, heq⟩ | hold
    · cases heq
      exact Or.inr (Or.inr (Or.inl ⟨m₀, r, hm₀, hlo, hhi, rfl, rfl⟩))
    · exact Or.inl hold
  | recv j ps =>
    simp only [Option.ite_none_right_eq_some, Option.map_eq_some_iff] at h
    rcases h with ⟨hps, m₀, hm₀, rfl⟩
    rcases hset hm with ⟨rfl, heq⟩ | hold
    · cases heq
      exact Or.inr (Or.inr (Or.inr ⟨m₀, ps, hm₀, hps, rfl⟩))
    · exact Or.inl hold
  | other d =>
    simp only [Option.ite_none_right_eq_some, Option.some.injEq] at h
    rcases h with ⟨_, rfl⟩
    exact Or.inl hm

/-- Time passes by the clock alone. -/
theorem groupStep_now {l : GroupLbl ι} {s t : GroupSt ι}
    (h : groupStep inetAddr nodes l s = some t) :
    (∃ n, l = .clock n ∧ s.now ≤ n ∧ t = { s with now := n }) ∨ t.now = s.now := by
  unfold groupStep at h
  cases l with
  | clock n =>
    simp only [Option.ite_none_right_eq_some, Option.some.injEq] at h
    exact Or.inl ⟨n, rfl, h.1, h.2.symm⟩
  | start j boot mem =>
    simp only [Option.ite_none_right_eq_some, Option.some.injEq] at h
    rw [← h.2]
    exact Or.inr rfl
  | stop j =>
    cases h
    exact Or.inr rfl
  | turn j sends sbuff r =>
    simp only [Option.ite_none_right_eq_some, Option.map_eq_some_iff] at h
    rcases h with ⟨_, m, _, rfl⟩
    exact Or.inr rfl
  | recv j ps =>
    simp only [Option.ite_none_right_eq_some, Option.map_eq_some_iff] at h
    rcases h with ⟨_, m, _, rfl⟩
    exact Or.inr rfl
  | other d =>
    simp only [Option.ite_none_right_eq_some, Option.some.injEq] at h
    rw [← h.2]
    exact Or.inr rfl

/-- **What a step does to the network**: nothing is taken back, and what comes is a
notification of the sender's or from outside. -/
theorem groupStep_sent {l : GroupLbl ι} {s t : GroupSt ι}
    (h : groupStep inetAddr nodes l s = some t) :
    ∃ new, t.sent = new ++ s.sent ∧ ∀ p ∈ new, PacketOk inetAddr nodes p := by
  unfold groupStep at h
  cases l with
  | clock n =>
    simp only [Option.ite_none_right_eq_some, Option.some.injEq] at h
    rcases h with ⟨_, rfl⟩
    exact ⟨[], rfl, by simp⟩
  | start j boot mem =>
    simp only [Option.ite_none_right_eq_some, Option.some.injEq] at h
    rcases h with ⟨_, rfl⟩
    exact ⟨[], rfl, by simp⟩
  | stop j =>
    cases h
    exact ⟨[], rfl, by simp⟩
  | turn j sends sbuff r =>
    simp only [Option.ite_none_right_eq_some, Option.map_eq_some_iff] at h
    rcases h with ⟨_, m, _, rfl⟩
    refine ⟨_, rfl, fun p hp => ?_⟩
    -- a turn sends its own description, and only when it is due
    unfold turnSends at hp
    by_cases hdue : m.Due s.now ∧ sends = true
    · rw [if_pos hdue, List.mem_singleton] at hp
      rw [hp]
      exact ⟨sbuff, rfl⟩
    · rw [if_neg hdue] at hp
      cases hp
  | recv j ps =>
    simp only [Option.ite_none_right_eq_some, Option.map_eq_some_iff] at h
    rcases h with ⟨_, m, _, rfl⟩
    exact ⟨[], rfl, by simp⟩
  -- another message, which describes no worker
  | other d =>
    simp only [Option.ite_none_right_eq_some, Option.some.injEq] at h
    rcases h with ⟨⟨hlen, htype⟩, rfl⟩
    refine ⟨[⟨d, none⟩], rfl, fun p hp => ?_⟩
    rw [List.mem_singleton.mp hp]
    exact ⟨hlen, htype⟩

/-! ## Runs -/

/-- **One step** of the group keeps the caches directories. -/
theorem groupInv_step (hfit : ∀ i, (nodes i).Fits) (hkeyed : Keyed nodes) (l : GroupLbl ι)
    (s t : GroupSt ι) (hs : GroupInv inetAddr nodes s) (h : groupStep inetAddr nodes l s = some t) :
    GroupInv inetAddr nodes t := by
  obtain ⟨new, hsent, hnew⟩ := groupStep_sent h
  have hkept : ∀ p ∈ s.sent, p ∈ t.sent := fun p hp => hsent ▸ List.mem_append_right new hp
  refine ⟨?_, fun i m hm => ?_, fun i m hm k hk => ?_⟩
  · rw [hsent, List.forall_mem_append]
    exact ⟨hnew, hs.packets⟩
  · rcases groupStep_member h hm with hold | ⟨boot, mem, rfl, _⟩ | ⟨m₀, r, hm₀, _, _, rfl, _⟩ |
      ⟨m₀, ps, hm₀, hps, rfl⟩
    · exact hs.directory i m hold
    · exact directory_nil
    · -- a turn sends, and hears nothing
      rcases m₀.turn_frame s.now r with ⟨hst, hheard, _⟩
      rw [hst, hheard]
      exact hs.directory i m₀ hm₀
    · exact (hs.directory i m₀ hm₀).hearAll hfit hkeyed _ _ fun p hp => hs.packets p.pkt (hps p hp)
  · have hstill : ∀ {m₀}, s.up i = some m₀ → k ∈ m₀.heard → ∃ p ∈ t.sent, p.sender = some k := by
      intro m₀ hm₀ hk₀
      rcases hs.heard i m₀ hm₀ k hk₀ with ⟨p, hp, hsender⟩
      exact ⟨p, hkept p hp, hsender⟩
    rcases groupStep_member h hm with hold | ⟨boot, mem, rfl, _⟩ | ⟨m₀, r, hm₀, _, _, rfl, _⟩ |
      ⟨m₀, ps, hm₀, hps, rfl⟩
    · exact hstill hold hk
    · cases hk
    · rw [(m₀.turn_frame s.now r).2.1] at hk
      exact hstill hm₀ hk
    · rcases List.mem_append.mp hk with hnow | hbefore
      · rcases List.mem_filterMap.mp hnow with ⟨p, hp, hsender⟩
        exact ⟨p.pkt, hkept p.pkt (hps p hp), hsender⟩
      · exact hstill hm₀ hbefore

/-- **The caches are directories of the workers heard of**: in every run of any number of
workers, whatever the network does and in whatever order, a cache answers for a service and
an id with the address of the worker of that name, once its owner has heard of it, and not at
all before; two workers that have heard of the same ones answer alike; and nobody is heard of
who has not sent. The ids fit the wire and the names the cache, and no two workers of a
service have one id. -/
theorem directory_of_heard (hfit : ∀ i, (nodes i).Fits) (hkeyed : Keyed nodes)
    {ls : List (GroupLbl ι)} {s : GroupSt ι}
    (h : exec (groupStep inetAddr nodes) ls groupInit = some s) {i : ι} {m : Member ι}
    (hm : s.up i = some m) {name : List UInt8} (hnz : 0 ∉ name) (id : UInt32) :
    (∀ a, lookup m.st.servs name id = some a ↔
      ∃ k ∈ m.heard, (nodes k).Named name id ∧ (nodes k).addr inetAddr = a) ∧
    (∀ k m', s.up k = some m' → (∀ j, j ∈ m.heard ↔ j ∈ m'.heard) →
      lookup m.st.servs name id = lookup m'.st.servs name id) ∧
    ∀ k ∈ m.heard, ∃ p ∈ s.sent, p.sender = some k := by
  have hinv : GroupInv inetAddr nodes s :=
    exec_invariant' _ (groupInv_step hfit hkeyed) groupInv_init h
  have hdir := hinv.directory i m hm
  refine ⟨hdir name id hnz, fun k m' hm' hsame => ?_, hinv.heard i m hm⟩
  have hdir' := hinv.directory k m' hm'
  apply Option.ext
  intro a
  rw [hdir.congr hsame name id hnz a, hdir' name id hnz a]

/-! ## Cadence -/

/-- The condition on the clock: it fits `next_syn_addr`, and the worker takes a turn at least
every `g` seconds. -/
def Timely (i : ι) (g : Nat) (l : GroupLbl ι) (s : GroupSt ι) : Prop :=
  match l with
  | .clock t => t + 10 < 2 ^ 32 ∧ ∀ m ∈ s.up i, t ≤ m.turned + g
  | _ => True

instance (i : ι) (g : Nat) (l : GroupLbl ι) (s : GroupSt ι) : Decidable (Timely i g l s) :=
  match l with
  | .clock _ => inferInstanceAs (Decidable (_ ∧ _))
  | .start .. | .stop _ | .turn .. | .recv .. | .other _ => isTrue trivial

/-- The invariant of a worker that takes its turns in time. -/
structure CadenceInv (i : ι) (g : Nat) (s : GroupSt ι) : Prop where
  clock : s.now + 10 < 2 ^ 32
  steady : ∀ m, s.up i = some m → Steady m
  inTime : ∀ m, s.up i = some m → m.started ≤ s.now ∧ s.now ≤ m.turned + g

/-- **One step** of the group keeps the cadence of a worker. -/
theorem cadenceInv_step (i : ι) (g : Nat) (l : GroupLbl ι) (s t : GroupSt ι) (hs : CadenceInv i g s)
    (hl : Timely i g l s) (h : groupStep inetAddr nodes l s = some t) : CadenceInv i g t := by
  rcases groupStep_now h with ⟨n, rfl, hle, rfl⟩ | hnow
  · -- the clock waits for the worker's turn
    rcases hl with ⟨hclock, hturn⟩
    refine ⟨hclock, hs.steady, fun m hm => ⟨?_, hturn m hm⟩⟩
    exact (hs.inTime m hm).1.trans hle
  have hclock := hs.clock
  refine ⟨hnow ▸ hclock, fun m hm => ?_, fun m hm => ?_⟩
  · rcases groupStep_member h hm with hold | ⟨boot, mem, rfl, _⟩ | ⟨m₀, r, hm₀, hlo, hhi, rfl, _⟩ |
      ⟨m₀, ps, hm₀, _, rfl⟩
    · exact hs.steady m hold
    · exact steady_fresh hclock boot mem
    · exact (hs.steady m₀ hm₀).turn hclock hlo hhi (hs.inTime m₀ hm₀).1
    · have hsteady := hs.steady m₀ hm₀
      exact ⟨hsteady.apart, hsteady.early, hsteady.first, hsteady.passed, hsteady.soon,
        hsteady.turned⟩
  · rw [hnow]
    rcases groupStep_member h hm with hold | ⟨boot, mem, rfl, _⟩ | ⟨m₀, r, hm₀, _, _, rfl, _⟩ |
      ⟨m₀, ps, hm₀, _, rfl⟩
    · exact hs.inTime m hold
    · exact ⟨Nat.le_refl _, Nat.le_add_right _ _⟩
    · rcases m₀.turn_frame s.now r with ⟨_, _, hstarted, hturned⟩
      rw [hstarted, hturned]
      exact ⟨(hs.inTime m₀ hm₀).1, Nat.le_add_right _ _⟩
    · exact hs.inTime m₀ hm₀

/-- **Neither a flood nor silence**: in every run in which a worker's loop takes a turn at
least every `g` seconds, its notifications are two seconds or more apart, the first one comes six
seconds or more after its start, and it has never been silent for more than `10 + g` seconds, be
its packets sent or lost. -/
theorem syn_cadence {i : ι} {g : Nat} {ls : List (GroupLbl ι)} {s : GroupSt ι}
    (hls : Along (groupStep inetAddr nodes) (Timely i g) ls groupInit)
    (h : exec (groupStep inetAddr nodes) ls groupInit = some s) {m : Member ι}
    (hm : s.up i = some m) :
    (m.syns.Pairwise fun t t' => t' + 2 ≤ t) ∧ (∀ t ∈ m.syns, m.started + 6 ≤ t) ∧
      s.now ≤ m.lastSyn + 10 + g := by
  have hinit : CadenceInv i g groupInit :=
    ⟨by simp [groupInit], by simp [groupInit], by simp [groupInit]⟩
  have hinv : CadenceInv i g s := exec_invariant _ (cadenceInv_step i g) hinit hls h
  have hsteady := hinv.steady m hm
  have hturned := hsteady.turned
  have hsoon := hsteady.soon
  have htime := (hinv.inTime m hm).2
  exact ⟨hsteady.apart, hsteady.first, by omega⟩

/-! ## A group of two -/

/-- Two workers of the service `echo`. -/
def echoNodes (i : Bool) : Node :=
  if i then { name := echoName, work := workOf 2 8081 }
  else { name := echoName, work := workOf 1 8080 }

/-- The address 127.0.0.1 for every text. -/
def loopback (_ : List UInt8) : UInt32 := 16777343

/-- What both boot with. -/
def fullBoot : BootEnv := { dl := fullDl, loads := by decide }

/-- The second worker hears the first one twice, behind a request that it passes on. -/
def echoRun : List (GroupLbl Bool) :=
  let zero : Mem := fun _ => 0
  let p : Recvd Bool := ⟨noti loopback echoNodes false zero, plainEnv, fun _ => fullDl⟩
  let q : Recvd Bool := ⟨⟨[5, 0, 0, 0, 9], none⟩, plainEnv, fun _ => fullDl⟩
  [.start false fullBoot zero, .start true fullBoot zero, .clock 6, .turn false true zero 3,
    .other [5, 0, 0, 0, 9], .recv true [p, q, p], .turn true false zero 1, .clock 9]

/-- The second worker has heard of the first, and of no other. -/
theorem directory_of_heard_echoRun :
    ∃ s m, exec (groupStep loopback echoNodes) echoRun groupInit = some s ∧ s.up true = some m ∧
      lookup m.st.servs echoName.chars 1 = some (16777343, 8080) ∧
      lookup m.st.servs echoName.chars 2 = none := by
  have hkeyed : Keyed echoNodes := by
    rintro i k name id ⟨_, hi⟩ ⟨_, hk⟩
    have hids : ∀ i k, getServId (echoNodes i).work = getServId (echoNodes k).work → i = k := by
      decide
    exact hids i k (hi.trans hk.symm)
  have hsome : (exec (groupStep loopback echoNodes) echoRun groupInit).isSome := by decide +kernel
  have hup : ∀ s ∈ exec (groupStep loopback echoNodes) echoRun groupInit,
      (s.up true).isSome ∧ ∀ m ∈ s.up true, m.heard = [false, false] := by decide +kernel
  rcases Option.isSome_iff_exists.mp hsome with ⟨s, hrun⟩
  rcases Option.isSome_iff_exists.mp (hup s hrun).1 with ⟨m, hm⟩
  have hheard := (hup s hrun).2 m hm
  refine ⟨s, m, hrun, hm, ?_, ?_⟩
  · refine ((directory_of_heard (by decide) hkeyed hrun hm echoName.noZero 1).1 _).mpr ?_
    exact ⟨false, by simp [hheard], ⟨rfl, rfl⟩, rfl⟩
  · refine Option.eq_none_iff_forall_ne_some.mpr fun a ha => ?_
    rcases ((directory_of_heard (by decide) hkeyed hrun hm echoName.noZero 2).1 a).mp ha with
      ⟨k, hk, ⟨_, hid⟩, _⟩
    rw [hheard] at hk
    simp only [List.mem_cons, List.not_mem_nil, or_false, or_self] at hk
    subst hk
    exact absurd hid (by decide)

/-- The first worker notifies twice; the packet of the second time is lost. -/
def beats : List (GroupLbl Bool) :=
  let zero : Mem := fun _ => 0
  [.start false fullBoot zero, .clock 6, .turn false true zero 3, .clock 9, .turn false true zero 3,
    .clock 12, .turn false false zero 4, .clock 13]

/-- Two notifications of a worker, six seconds apart. -/
theorem syn_cadence_beats :
    ∃ s m, exec (groupStep loopback echoNodes) beats groupInit = some s ∧ s.up false = some m ∧
      m.syns = [12, 6] ∧ (m.syns.Pairwise fun t t' => t' + 2 ≤ t) ∧
      (∀ t ∈ m.syns, m.started + 6 ≤ t) ∧ s.now ≤ m.lastSyn + 16 := by
  have hls : Along (groupStep loopback echoNodes) (Timely false 6) beats groupInit := by
    decide +kernel
  have hsome : (exec (groupStep loopback echoNodes) beats groupInit).isSome := by decide +kernel
  have hup : ∀ s ∈ exec (groupStep loopback echoNodes) beats groupInit,
      (s.up false).isSome ∧ ∀ m ∈ s.up false, m.syns = [12, 6] := by
    decide +kernel
  rcases Option.isSome_iff_exists.mp hsome with ⟨s, hrun⟩
  rcases Option.isSome_iff_exists.mp (hup s hrun).1 with ⟨m, hm⟩
  exact ⟨s, m, hrun, hm, (hup s hrun).2 m hm, syn_cadence hls hrun hm⟩

end SServer.Mcast
