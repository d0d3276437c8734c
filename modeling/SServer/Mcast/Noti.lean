import SServer.Mcast.Cache

/-!
# SServer.Mcast.Noti — how workers hear of each other

`do_syn_serv_addr` puts a worker's id, address and service name into a packet that
`send_pkg_to_mcast` hands to the multicast group; `do_mcast_serv_noti` puts what it reads
there into the cache. The id is a `uint32_t` of the configuration, a `uint16_t` on the
wire and an int in the cache.

The result: every receiver finds a worker under its service name and id, and two
workers of a service apart, exactly when their ids fit the wire and the name fits the
16 bytes of the cache.

* `notiCall_doSynServAddr`: what arrives of a notification: everything but the upper half of the
  id.
* `discovery_iff_fits`: the result, for all pairs of workers, all caches and all contents of the
  buffers.
* `id65537_not_discovered`: a worker that is never found, and takes the place of another one.

A notification arrives here. What happens when the network loses or repeats some is told in
`SServer.Mcast.Group`.
-/

namespace SServer.Mcast

open SServer.Lib

/-! ## Packets -/

/-- `enum MCAST_CMD`. -/
inductive McastCmd where
  | servNoti
  | reloadSo
  | reloadConf
deriving DecidableEq, Repr

/-- The value stored in `mcast_type`. -/
def McastCmd.code : McastCmd → UInt8
  | .servNoti => 1
  | .reloadSo => 2
  | .reloadConf => 3

/-- `sizeof(mcast_pkg_t)`: an int and a byte, packed; `data` is what follows. -/
def mcastPkgLen : Int := 5

/-- `MCAST_MSG_LEN`. -/
def mcastMsgLen : Nat := 4096

/-- `serv_noti_t`. -/
structure ServNoti where
  ip : UInt32
  port : UInt16
  id : UInt16
  servname : Mem

/-- `sizeof(serv_noti_t)`, with 32 bytes of `servname`. -/
def servNotiLen : Int := 40

/-- The bytes of a `serv_noti_t`. -/
def ServNoti.encode (n : ServNoti) : Mem := fun i =>
  if i < 4 then storeU32 n.ip i
  else if i < 6 then storeU16 n.port (i - 4)
  else if i < 8 then storeU16 n.id (i - 6)
  else n.servname (i - 8)

/-- The `serv_noti_t` behind a pointer. -/
def ServNoti.decode (p : Mem) : ServNoti :=
  { ip := loadU32 p
    port := loadU16 (p.ptr 4)
    id := loadU16 (p.ptr 6)
    servname := p.ptr 8 }

/-- The buffer of `send_pkg_to_mcast` behind its three stores. -/
def mcastBuff (buff : Mem) (type : UInt8) (len : Int) (data : Mem) : Mem :=
  let buff := memcpy buff 0 (storeLe32 (Int32.ofInt (len + mcastPkgLen))) 4
  let buff := memcpy buff 4 (fun _ => type) 1
  memcpy buff mcastPkgLen data len

/-- `send_pkg_to_mcast`: the datagram that `sendto` takes. -/
def sendPkgToMcast (buff : Mem) (type : UInt8) (len : Int) (data : Mem) : List UInt8 :=
  bytes (mcastBuff buff type len data) (len + mcastPkgLen)

/-- The buffer of `do_proc_mcast` behind the `recv` of a datagram. -/
def recvInto (buf : Mem) (d : List UInt8) : Mem :=
  memcpy buf 0 (ofBytes (d.take mcastMsgLen)) (d.take mcastMsgLen).length

/-! ## The sender -/

/-- What a worker knows of itself in `works[work_idx]`. -/
structure Work where
  id : UInt32
  ip : List UInt8
  port : UInt16

/-- `setting.srv_name`: what stands there, and the string that it is. -/
structure SrvName where
  field : Mem
  chars : List UInt8
  holds : Holds field chars
  noZero : 0 ∉ chars

variable (inetAddr : List UInt8 → UInt32)

/-- `get_serv_ip`, with `inet_addr` as `inetAddr`. -/
def getServIp (w : Work) : UInt32 := inetAddr w.ip

/-- `get_serv_port`. -/
def getServPort (w : Work) : UInt16 := w.port

/-- `get_serv_id`. -/
def getServId (w : Work) : UInt32 := w.id

/-- `do_syn_serv_addr`. -/
def doSynServAddr (name : SrvName) (buff : Mem) (w : Work) : List UInt8 :=
  let serv : ServNoti :=
    { ip := getServIp inetAddr w
      port := getServPort w
      id := (getServId w).toUInt16
      servname := name.field }
  sendPkgToMcast buff McastCmd.servNoti.code servNotiLen serv.encode

/-! ## The receiver -/

/-- The arguments that `do_mcast_serv_noti` reads from a packet. -/
def notiCall (pkg : Mem) : ServCall :=
  let serv := ServNoti.decode (pkg.ptr mcastPkgLen)
  { name := cstr mcastMsgLen serv.servname
    id := serv.id.toUInt32
    ip := serv.ip
    port := serv.port }

/-- `do_mcast_serv_noti`. -/
def doMcastServNoti (pkg : Mem) (env : CallEnv) (servs : List ServCach) : List ServCach :=
  addServToCach (notiCall pkg) env servs

/-- What sender and receiver have in their buffers, and what the call meets. -/
structure HopEnv where
  sbuff : Mem
  rbuf : Mem
  env : CallEnv

/-- A notification of `w` arrives at a receiver. -/
def notify (name : SrvName) (w : Work) (hop : HopEnv) (servs : List ServCach) : List ServCach :=
  doMcastServNoti (recvInto hop.rbuf (doSynServAddr inetAddr name hop.sbuff w)) hop.env servs

/-! ## The hop -/

/-- Bytes that were read, as a memory. -/
theorem ofBytes_bytes {p : Mem} {n i : Int} (h0 : 0 ≤ i) (hi : i < n) :
    ofBytes (bytes p n) i = p i := by
  have hcast : ((i.toNat : Nat) : Int) = i := by omega
  have hget : (bytes p n)[i.toNat]? = some (p (i.toNat : Nat)) := bytes_getElem? (by omega)
  rw [ofBytes, List.getD_eq_getElem?_getD, hget, hcast]
  rfl

/-- A datagram that fits is read as it was sent. -/
theorem recvInto_bytes (buf : Mem) {p : Mem} {n i : Int} (hn : n ≤ mcastMsgLen) (h0 : 0 ≤ i)
    (hi : i < n) : recvInto buf (bytes p n) i = p i := by
  have hlen : (bytes p n).length ≤ mcastMsgLen := by
    rw [bytes_length]
    omega
  unfold recvInto
  rw [List.take_of_length_le hlen, memcpy_in (by rw [bytes_length]; omega), Int.sub_zero]
  exact ofBytes_bytes h0 hi

/-- The data of a packet. -/
theorem mcastBuff_data (buff : Mem) (type : UInt8) {len : Int} (data : Mem) {i : Int}
    (h0 : 0 ≤ i) (hi : i < len) : mcastBuff buff type len data (mcastPkgLen + i) = data i := by
  unfold mcastBuff
  rw [memcpy_in (by omega)]
  congr 1
  omega

/-- The address in a notification is read where it was written. -/
theorem encode_ip (n : ServNoti) : loadU32 n.encode = n.ip := by
  rw [← loadU32_storeU32 n.ip]
  refine loadU32_congr fun i _ hi => ?_
  simp [ServNoti.encode, hi]

/-- So is the port. -/
theorem encode_port (n : ServNoti) : loadU16 (n.encode.ptr 4) = n.port := by
  rw [← loadU16_storeU16 n.port]
  refine loadU16_congr fun i h0 hi => ?_
  simp only [Mem.ptr_apply, ServNoti.encode, if_neg (show ¬ 4 + i < 4 by omega),
    if_pos (show 4 + i < 6 by omega)]
  congr 1
  omega

/-- So is the id. -/
theorem encode_id (n : ServNoti) : loadU16 (n.encode.ptr 6) = n.id := by
  rw [← loadU16_storeU16 n.id]
  refine loadU16_congr fun i h0 hi => ?_
  simp only [Mem.ptr_apply, ServNoti.encode, if_neg (show ¬ 6 + i < 4 by omega),
    if_neg (show ¬ 6 + i < 6 by omega), if_pos (show 6 + i < 8 by omega)]
  congr 1
  omega

/-- And the name, byte by byte. -/
theorem encode_servname (n : ServNoti) {i : Int} (h0 : 0 ≤ i) :
    n.encode (8 + i) = n.servname i := by
  simp only [ServNoti.encode, if_neg (show ¬ 8 + i < 4 by omega),
    if_neg (show ¬ 8 + i < 6 by omega), if_neg (show ¬ 8 + i < 8 by omega)]
  congr 1
  omega

/-- The packet of a notification arrives as it was encoded. -/
theorem recvInto_data (n : ServNoti) (sbuff rbuf : Mem) (i : Int) (h0 : 0 ≤ i)
    (hi : i < servNotiLen) :
    recvInto rbuf (sendPkgToMcast sbuff McastCmd.servNoti.code servNotiLen n.encode)
      (mcastPkgLen + i) = n.encode i := by
  unfold sendPkgToMcast
  rw [recvInto_bytes rbuf (by decide) (by simp only [mcastPkgLen]; omega) (by omega)]
  exact mcastBuff_data sbuff _ n.encode h0 hi

/-- A notification is read from behind the header to the end of its name. -/
theorem notiCall_congr {p p' : Mem} {j : Nat} (hlo : 13 ≤ j) (hhi : j < mcastMsgLen)
    (hz : p j = 0) (heq : ∀ i, mcastPkgLen ≤ i → i ≤ (j : Int) → p i = p' i) :
    notiCall p = notiCall p' := by
  have hlen : mcastPkgLen = 5 := rfl
  unfold notiCall ServNoti.decode
  rw [ServCall.mk.injEq]
  refine ⟨?_, ?_, ?_, ?_⟩
  · refine cstr_congr (k := j - 13) (by omega) ?_ fun i h0 hi => ?_
    · rw [← hz]
      simp only [Mem.ptr_apply]
      congr 1
      omega
    · exact heq _ (by omega) (by omega)
  · refine congrArg UInt16.toUInt32 (loadU16_congr fun i h0 hi => ?_)
    exact heq _ (by omega) (by omega)
  · refine loadU32_congr fun i h0 hi => ?_
    exact heq _ (by omega) (by omega)
  · refine loadU16_congr fun i h0 hi => ?_
    exact heq _ (by omega) (by omega)

/-- What is read of a packet with an encoded record. -/
theorem notiCall_encode {n : ServNoti} {pkg : Mem} (hpkg : pkg.ptr mcastPkgLen = n.encode)
    {s : List UInt8} (hs : Holds n.servname s) (hnz : 0 ∉ s) (hfits : s.length < mcastMsgLen) :
    notiCall pkg = { name := s, id := n.id.toUInt32, ip := n.ip, port := n.port } := by
  have hname : Holds (n.encode.ptr 8) s := by
    refine hs.congr fun i h0 _ => ?_
    rw [Mem.ptr_apply, encode_servname n h0]
  unfold notiCall ServNoti.decode
  simp only [hpkg]
  rw [hname.cstr hnz hfits, encode_id, encode_ip, encode_port]

/-- What a receiver reads of an encoded record, with a name that ends in its 32 bytes. -/
theorem notiCall_recvInto (n : ServNoti) (sbuff rbuf : Mem) {s : List UInt8}
    (hs : Holds n.servname s) (hnz : 0 ∉ s) (hfits : s.length < 32) :
    notiCall (recvInto rbuf (sendPkgToMcast sbuff McastCmd.servNoti.code servNotiLen n.encode)) =
      { name := s, id := n.id.toUInt32, ip := n.ip, port := n.port } := by
  have hlen : mcastPkgLen = 5 := rfl
  have hmax : servNotiLen = 40 := rfl
  let pkg : Mem := fun i => n.encode (i - mcastPkgLen)
  have hpkg : pkg.ptr mcastPkgLen = n.encode := by
    funext i
    show n.encode (mcastPkgLen + i - mcastPkgLen) = n.encode i
    congr 1
    omega
  have hin : ∀ i, mcastPkgLen ≤ i → i ≤ ((13 + s.length : Nat) : Int) →
      recvInto rbuf (sendPkgToMcast sbuff McastCmd.servNoti.code servNotiLen n.encode) i =
        pkg i := by
    intro i hlo hhi
    have hsum : i = mcastPkgLen + (i - mcastPkgLen) := by omega
    rw [hsum, recvInto_data n sbuff rbuf _ (by omega) (by omega), ← hsum]
  have hend : pkg (13 + s.length : Nat) = 0 := by
    show n.encode (((13 + s.length : Nat) : Int) - mcastPkgLen) = 0
    have hsum : ((13 + s.length : Nat) : Int) - mcastPkgLen = 8 + s.length := by omega
    rw [hsum, encode_servname n (by omega), hs.zero]
  have hshort : 13 + s.length < mcastMsgLen := by
    show 13 + s.length < 4096
    omega
  rw [← notiCall_encode hpkg hs hnz (by omega)]
  refine notiCall_congr (Nat.le_add_right 13 s.length) hshort ?_ hin
  rw [hin _ (by omega) (Int.le_refl _), hend]

/-- **What arrives of a notification**: everything but the upper half of the id. -/
theorem notiCall_doSynServAddr (name : SrvName) (hfits : name.chars.length < 32)
    (sbuff rbuf : Mem) (w : Work) :
    notiCall (recvInto rbuf (doSynServAddr inetAddr name sbuff w)) =
      { name := name.chars
        id := (getServId w).toUInt16.toUInt32
        ip := getServIp inetAddr w
        port := getServPort w } :=
  notiCall_recvInto _ sbuff rbuf name.holds name.noZero hfits

/-- What a receiver finds behind a notification, if the name fits its record. -/
theorem lookup_notify (name : SrvName) (hshort : name.chars.length ≤ 15) (w : Work)
    (hop : HopEnv) (servs : List ServCach) (id : UInt32) :
    lookup (notify inetAddr name w hop servs) name.chars id =
      if (getServId w).toUInt16.toUInt32 = id then some (getServIp inetAddr w, getServPort w)
      else lookup servs name.chars id := by
  unfold notify doMcastServNoti
  rw [notiCall_doSynServAddr inetAddr name (by omega)]
  rw [lookup_addServToCach name.noZero (Or.inr (nameKept_of_short hshort hop.env)) id name.noZero]
  simp only [true_and]

/-! ## Discovery -/

/-- Wherever a notification of `w` arrives, `w` is found under its service name and id. -/
def Discovered (name : SrvName) (w : Work) : Prop :=
  ∀ (servs : List ServCach) (hop : HopEnv),
    lookup (notify inetAddr name w hop servs) name.chars (getServId w) =
      some (getServIp inetAddr w, getServPort w)

/-- Where a notification of `w'` follows one of `w`, both are found. -/
def KeptApart (name : SrvName) (w w' : Work) : Prop :=
  ∀ (servs : List ServCach) (hop hop' : HopEnv),
    let servs := notify inetAddr name w' hop' (notify inetAddr name w hop servs)
    lookup servs name.chars (getServId w) = some (getServIp inetAddr w, getServPort w) ∧
      lookup servs name.chars (getServId w') = some (getServIp inetAddr w', getServPort w')

/-- The id fits the wire. -/
def OnWire (w : Work) : Prop := (getServId w).toNat < 65536

instance (w : Work) : Decidable (OnWire w) := inferInstanceAs (Decidable (_ < _))

/-- An id fits the wire when its sixteen bits are all of it. -/
theorem onWire_iff (w : Work) : OnWire w ↔ (getServId w).toUInt16.toUInt32 = getServId w := by
  rw [← UInt32.toNat_inj]
  simp only [OnWire, UInt16.toNat_toUInt32, UInt32.toNat_toUInt16]
  omega

/-- The address of a table whose low byte is another one than `b`. -/
def ptrApart (b : UInt8) : UInt64 := if b = 0x70 then 0x5560 else 0x5570

/-- A pointer whose first byte is another one. -/
theorem lePtr_ptrApart (b : UInt8) : lePtr (ptrApart b) 0 ≠ b := by
  unfold ptrApart
  by_cases hb : b = 0x70
  · rw [if_pos hb, hb]
    decide
  · rw [if_neg hb]
    exact fun heq => hb (heq.symm.trans (by decide))

/-- A name of 16 bytes or more is not found in a cache that was empty. -/
theorem short_of_discovered {name : SrvName} {w : Work} (h : Discovered inetAddr name w) :
    name.chars.length ≤ 15 := by
  by_contra hlong
  have h16 : 16 ≤ name.chars.length := by omega
  have hzero : Mem := fun _ => 0
  obtain ⟨b, hb⟩ : ∃ b, (name.chars ++ [0])[16]? = some b :=
    ⟨_, List.getElem?_eq_getElem (by simp; omega)⟩
  let hop : HopEnv :=
    { sbuff := hzero, rbuf := hzero, env := { fresh := hzero, ptr := ptrApart b, now := 0 } }
  have hfound := h [] hop
  -- the one record has another byte 16 than the name
  have hlost : lookup (notify inetAddr name w hop []) name.chars (getServId w) = none := by
    have hmiss : ¬ Holds (newServ (notiCall (recvInto hop.rbuf
        (doSynServAddr inetAddr name hop.sbuff w))) hop.env).mem name.chars := by
      intro hholds
      have hbyte := holds_iff.mp hholds 16 h16
      simp only [newServ] at hbyte
      rw [hb, memcpy_in (by omega)] at hbyte
      exact lePtr_ptrApart b (Option.some.inj hbyte).symm
    show lookup [newServ _ hop.env] name.chars _ = none
    unfold lookup findServ
    rw [List.find?_cons_of_neg (by simpa using hmiss)]
    rfl
  rw [hlost] at hfound
  cases hfound

/-- An id that does not fit the wire is not found in a cache that was empty. -/
theorem onWire_of_discovered {name : SrvName} {w : Work} (h : Discovered inetAddr name w) :
    OnWire w := by
  have hshort := short_of_discovered inetAddr h
  have hzero : Mem := fun _ => 0
  have hfound := h [] ⟨hzero, hzero, { fresh := hzero, ptr := 0, now := 0 }⟩
  rw [lookup_notify inetAddr name hshort] at hfound
  rw [onWire_iff]
  by_contra hne
  rw [if_neg hne] at hfound
  cases hfound

/-- What fits is discovered. -/
theorem discovered_of_fits {name : SrvName} {w : Work} (hshort : name.chars.length ≤ 15)
    (hw : OnWire w) : Discovered inetAddr name w := by
  intro servs hop
  rw [lookup_notify inetAddr name hshort, if_pos ((onWire_iff w).mp hw)]

/-- Two ids that fit are two keys. -/
theorem keptApart_of_fits {name : SrvName} {w w' : Work} (hshort : name.chars.length ≤ 15)
    (hw : OnWire w) (hw' : OnWire w') (hne : getServId w ≠ getServId w') :
    KeptApart inetAddr name w w' := by
  have hkey := (onWire_iff w').mp hw'
  intro servs hop hop'
  refine ⟨?_, discovered_of_fits inetAddr hshort hw' _ hop'⟩
  rw [lookup_notify inetAddr name hshort, if_neg]
  · exact discovered_of_fits inetAddr hshort hw servs hop
  · intro heq
    exact hne (heq.symm.trans hkey)

/-- **The round trip of service discovery**, exactly when ids and name fit: notifications
of two workers of a service each lead to the sender's id, address and port in every
receiver's cache, and do not overwrite each other if the ids differ, if and only if
both ids are below 65536 and the name has at most 15 bytes. -/
theorem discovery_iff_fits (name : SrvName) (w w' : Work) :
    (Discovered inetAddr name w ∧ Discovered inetAddr name w' ∧
        (getServId w ≠ getServId w' → KeptApart inetAddr name w w')) ↔
      OnWire w ∧ OnWire w' ∧ name.chars.length ≤ 15 := by
  constructor
  · rintro ⟨h, h', _⟩
    exact ⟨onWire_of_discovered inetAddr h, onWire_of_discovered inetAddr h',
      short_of_discovered inetAddr h⟩
  · rintro ⟨hw, hw', hshort⟩
    exact ⟨discovered_of_fits inetAddr hshort hw, discovered_of_fits inetAddr hshort hw',
      keptApart_of_fits inetAddr hshort hw hw'⟩

/-- The name `echo`. -/
def echoName : SrvName :=
  { field := ofBytes [101, 99, 104, 111, 0]
    chars := [101, 99, 104, 111]
    holds := by decide
    noZero := by decide }

/-- The workers with the ids 1 and 65537. -/
def workOf (id : UInt32) (port : UInt16) : Work := { id, ip := [], port }

/-- The second worker is never found, and its notification overwrites the first one. -/
theorem id65537_not_discovered :
    ¬ Discovered (fun _ => 16777343) echoName (workOf 65537 8081) ∧
      ¬ KeptApart (fun _ => 16777343) echoName (workOf 1 8080) (workOf 65537 8081) := by
  let hzero : Mem := fun _ => 0
  let hop : HopEnv := ⟨hzero, hzero, { fresh := hzero, ptr := 0x5570, now := 0 }⟩
  constructor
  · intro h
    exact absurd (onWire_of_discovered _ h) (by decide)
  · intro h
    have hfirst := (h [] hop hop).1
    rw [lookup_notify _ echoName (by decide)] at hfirst
    exact absurd hfirst (by decide)

end SServer.Mcast
