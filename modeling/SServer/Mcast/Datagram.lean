import SServer.Mcast.Reload

/-!
# SServer.Mcast.Datagram — what a worker reads of a datagram

`do_proc_mcast` receives every datagram of the group into one static buffer and reads a
packet from it, whatever the length. Bytes that a datagram does not have are those of earlier
ones, and a string without an end goes on behind it.

The result: what is done for a datagram depends on its own bytes, and a short one changes
nothing, exactly when it is empty or long enough with its strings ended, or asks another
worker to reload.

* `seen_of_ended`, `ended_of_seen`: a datagram is seen as it is exactly when its strings end
  inside it.
* `datagram_own_iff`: the result, for all histories of datagrams and whatever follows the buffer
  in memory.
* `headerOnly_not_own`: the header of a notification alone: its fields are those of earlier
  datagrams.

What a request "sees" are all fields of its packet, also those that a worker which is not meant
does not go on to use: the stricter of two readings.
-/

namespace SServer.Mcast

open SServer.Lib

/-! ## A datagram -/

/-- The static buffer and what follows it in memory, the cache and the logic. -/
structure McastSt where
  buf : Mem
  servs : List ServCach
  logic : Logic

/-- A datagram, what a new record meets, and what the system answers for each path. -/
structure McastLbl where
  d : List UInt8
  env : CallEnv
  fs : List UInt8 → DlEnv

/-- The `reload_so_t` in a packet. -/
def reloadReq (pkg : Mem) : ReloadSo :=
  let rs := pkg.ptr mcastPkgLen
  { id := loadU16 rs
    servname := cstr mcastMsgLen (rs.ptr 2)
    soname := cstr mcastMsgLen (rs.ptr 34) }

/-- `sizeof(reload_so_t)`. -/
def reloadSoLen : Int := 162

/-- `do_mcast_other_req`. -/
def doMcastOtherReq (s : Logic) : Logic := callPtr .procMcastMsg s

variable (name : SrvName) (w : Work)

/-- The body of the loop of `do_proc_mcast`; a wrong size is only logged. -/
def doPkg (l : McastLbl) (s : McastSt) : McastSt :=
  let pkg := s.buf
  if pkg 4 = McastCmd.servNoti.code then { s with servs := doMcastServNoti pkg l.env s.servs }
  else if pkg 4 = McastCmd.reloadSo.code then
    { s with logic := (doMcastRealodSo name w (reloadReq pkg) l.fs s.logic).1 }
  else if pkg 4 = McastCmd.reloadConf.code then { s with logic := doMcastOtherReq s.logic }
  else { s with logic := doMcastOtherReq s.logic }

/-- One `recv` and what follows it. -/
def recvPkg (l : McastLbl) (s : McastSt) : McastSt :=
  if l.d = [] then s else doPkg name w l { s with buf := recvInto s.buf l.d }

/-- `do_proc_mcast`, with the datagrams that wait; an empty one ends the loop. -/
def doProcMcast : List McastLbl → McastSt → McastSt × List McastLbl
  | [], s => (s, [])
  | l :: ls, s => if l.d = [] then (s, ls) else doProcMcast ls (recvPkg name w l s)

/-- All of a list of datagrams received. -/
def received (ls : List McastLbl) (s : McastSt) : McastSt :=
  ls.foldl (fun s l => recvPkg name w l s) s

/-- A worker that has received nothing; `mem` is what follows the buffer. -/
def mcastInit (boot : BootEnv) (mem : Mem) : McastSt :=
  { buf := fun i => if 0 ≤ i ∧ i < mcastMsgLen then 0 else mem i
    servs := []
    logic := booted boot }

/-- A worker behind a history of datagrams. -/
def after (boot : BootEnv) (mem : Mem) (hist : List McastLbl) : McastSt :=
  received name w hist (mcastInit boot mem)

/-- A call of `do_proc_mcast` receives the datagrams up to an empty one. -/
theorem doProcMcast_received (ls : List McastLbl) (s : McastSt) :
    ∃ done, ls = done ++ (doProcMcast name w ls s).2 ∧
      (doProcMcast name w ls s).1 = received name w done s := by
  induction ls generalizing s with
  | nil => exact ⟨[], rfl, rfl⟩
  | cons l ls ih =>
    unfold doProcMcast
    by_cases hd : l.d = []
    · refine ⟨[l], ?_, ?_⟩
      · rw [if_pos hd]
        rfl
      · show (if l.d = [] then _ else _ : McastSt × List McastLbl).1 = recvPkg name w l s
        unfold recvPkg
        rw [if_pos hd, if_pos hd]
    · obtain ⟨done, hsplit, hres⟩ := ih (recvPkg name w l s)
      rw [if_neg hd]
      exact ⟨l :: done, congrArg (l :: ·) hsplit, hres⟩

/-! ## What is seen -/

/-- The handler that runs, and what it reads. -/
inductive View where
  | noti (c : ServCall)
  | reload (rs : ReloadSo)
  | other (type : UInt8)

/-- What is seen of a packet. -/
def view (pkg : Mem) : View :=
  if pkg 4 = McastCmd.servNoti.code then .noti (notiCall pkg)
  else if pkg 4 = McastCmd.reloadSo.code then .reload (reloadReq pkg)
  else .other (pkg 4)

/-- What is seen of a datagram; of an empty one, nothing. -/
def seen (d : List UInt8) (buf : Mem) : Option View :=
  if d = [] then none else some (view (recvInto buf d))

/-- What a handler does with what it has read. -/
def runView (l : McastLbl) (s : McastSt) : View → McastSt
  | .noti c => { s with servs := addServToCach c l.env s.servs }
  | .reload rs => { s with logic := (doMcastRealodSo name w rs l.fs s.logic).1 }
  | .other _ => { s with logic := doMcastOtherReq s.logic }

/-- What is done depends on what is seen. -/
theorem doPkg_view (l : McastLbl) (s : McastSt) :
    doPkg name w l s = runView name w l s (view s.buf) := by
  unfold doPkg view
  by_cases hnoti : s.buf 4 = McastCmd.servNoti.code
  · rw [if_pos hnoti, if_pos hnoti]
    rfl
  rw [if_neg hnoti, if_neg hnoti]
  by_cases hreload : s.buf 4 = McastCmd.reloadSo.code
  · rw [if_pos hreload, if_pos hreload]
    rfl
  rw [if_neg hreload, if_neg hreload, ite_self]
  rfl

/-- What is to hold: nothing but the datagram's bytes decides what is seen of it. -/
def OwnBytes (boot : BootEnv) (d : List UInt8) : Prop :=
  ∀ mem mem' hist hist',
    seen d (after name w boot mem hist).buf = seen d (after name w boot mem' hist').buf

/-- The size of the body that a type has. -/
def bodyLen (type : UInt8) : Int :=
  if type = McastCmd.servNoti.code then servNotiLen
  else if type = McastCmd.reloadSo.code then reloadSoLen
  else 0

/-- Shorter than `mcast_pkg_t` and the body of its type. -/
def Short (d : List UInt8) : Prop := (d.length : Int) < mcastPkgLen + bodyLen (ofBytes d 4)

instance (d : List UInt8) : Decidable (Short d) := inferInstanceAs (Decidable (_ < _))

/-- What is to hold: a short datagram changes neither the cache nor the loaded logic. -/
def ShortKept (boot : BootEnv) (d : List UInt8) : Prop :=
  Short d → ∀ mem hist env fs,
    let s := after name w boot mem hist
    let t := recvPkg name w ⟨d, env, fs⟩ s
    t.servs = s.servs ∧ t.logic.so = s.logic.so ∧ t.logic.opened = s.logic.opened

/-- The condition: nothing, or a header, with a whole notification in which the name ends, or
with a request in which the path ends, and which is whole or not for this worker. -/
def Whole (d : List UInt8) : Prop :=
  let r := d.take mcastMsgLen
  d = [] ∨ 5 ≤ r.length ∧
    (ofBytes r 4 = McastCmd.servNoti.code → 45 ≤ r.length ∧ 0 ∈ r.drop 13) ∧
    (ofBytes r 4 = McastCmd.reloadSo.code → 0 ∈ r.drop 39 ∧
      (167 ≤ r.length ∨ ¬ Aimed name w (reloadReq (recvInto (fun _ => 0) d))))

instance (d : List UInt8) : Decidable (Whole name w d) := inferInstanceAs (Decidable (_ ∨ _))

/-! ## The bytes of the buffer -/

/-- Inside a datagram the buffer has its bytes. -/
theorem recvInto_in (buf : Mem) {d : List UInt8} {i : Int} (h0 : 0 ≤ i)
    (hi : i < (d.take mcastMsgLen).length) :
    recvInto buf d i = ofBytes (d.take mcastMsgLen) i := by
  unfold recvInto
  rw [memcpy_in (by omega), Int.sub_zero]

/-- Behind it the buffer is as it was. -/
theorem recvInto_out (buf : Mem) {d : List UInt8} {i : Int}
    (hi : (d.take mcastMsgLen).length ≤ i) : recvInto buf d i = buf i := by
  unfold recvInto
  rw [memcpy_out (by omega)]

/-- A zero byte from an offset on. -/
theorem zero_mem_drop {r : List UInt8} {k : Nat} :
    0 ∈ r.drop k ↔ ∃ j : Nat, k ≤ j ∧ j < r.length ∧ ofBytes r j = 0 := by
  rw [List.mem_drop_iff_getElem]
  constructor
  · rintro ⟨j, hj, hz⟩
    refine ⟨k + j, by omega, by omega, ?_⟩
    rw [ofBytes_getElem (by omega), hz]
  · rintro ⟨j, hk, hj, hz⟩
    refine ⟨j - k, by omega, ?_⟩
    rw [ofBytes_getElem hj] at hz
    simpa only [Nat.add_sub_cancel' hk] using hz

/-- A request is read up to the end of its path. -/
theorem reloadReq_congr {p p' : Mem} {j : Nat} (hlo : 39 ≤ j) (hhi : j < mcastMsgLen)
    (hz : p j = 0) (heq : ∀ i, 0 ≤ i → i ≤ (j : Int) → p i = p' i) :
    reloadReq p = reloadReq p' := by
  have hlen : mcastPkgLen = 5 := rfl
  unfold reloadReq
  rw [ReloadSo.mk.injEq]
  refine ⟨?_, ?_, ?_⟩
  · refine loadU16_congr fun i h0 hi => ?_
    exact heq _ (by omega) (by omega)
  · refine cstr_congr (k := j - 7) (by omega) ?_ fun i h0 hi => ?_
    · rw [← hz]
      simp only [Mem.ptr_apply]
      congr 1
      omega
    · exact heq _ (by omega) (by omega)
  · refine cstr_congr (k := j - 39) (by omega) ?_ fun i h0 hi => ?_
    · rw [← hz]
      simp only [Mem.ptr_apply]
      congr 1
      omega
    · exact heq _ (by omega) (by omega)

/-! ## What is seen depends on the datagram -/

/-- The part of the condition about strings. -/
def Ended (d : List UInt8) : Prop :=
  let r := d.take mcastMsgLen
  d = [] ∨ 5 ≤ r.length ∧ (ofBytes r 4 = McastCmd.servNoti.code → 0 ∈ r.drop 13) ∧
    (ofBytes r 4 = McastCmd.reloadSo.code → 0 ∈ r.drop 39)

/-- **A datagram whose strings end is seen as it is**, whatever is in the buffer. -/
theorem seen_of_ended {d : List UInt8} (h : Ended d) (buf buf' : Mem) :
    seen d buf = seen d buf' := by
  unfold seen
  by_cases hd : d = []
  · rw [if_pos hd, if_pos hd]
  obtain ⟨hlen, hnoti, hreload⟩ := h.resolve_left hd
  rw [if_neg hd, if_neg hd]
  apply congrArg some
  have hin : ∀ i, 0 ≤ i → i < ((d.take mcastMsgLen).length : Int) →
      recvInto buf d i = recvInto buf' d i := by
    intro i h0 hi
    rw [recvInto_in buf h0 hi, recvInto_in buf' h0 hi]
  have hfull : (d.take mcastMsgLen).length ≤ mcastMsgLen := List.length_take_le _ _
  have htype := recvInto_in buf (d := d) (i := 4) (by decide) (by omega)
  have htype' := recvInto_in buf' (d := d) (i := 4) (by decide) (by omega)
  unfold view
  rw [htype, htype']
  by_cases h1 : ofBytes (d.take mcastMsgLen) 4 = McastCmd.servNoti.code
  · obtain ⟨j, hlo, hj, hz⟩ := zero_mem_drop.mp (hnoti h1)
    rw [if_pos h1, if_pos h1]
    apply congrArg View.noti
    refine notiCall_congr hlo (by omega) ?_ fun i h0 hi =>
      hin i (Int.le_trans (by decide) h0) (by omega)
    rw [recvInto_in buf (by omega) (by omega), hz]
  rw [if_neg h1, if_neg h1]
  by_cases h2 : ofBytes (d.take mcastMsgLen) 4 = McastCmd.reloadSo.code
  · obtain ⟨j, hlo, hj, hz⟩ := zero_mem_drop.mp (hreload h2)
    rw [if_pos h2, if_pos h2]
    apply congrArg View.reload
    refine reloadReq_congr hlo (by omega) ?_ fun i h0 hi => hin i h0 (by omega)
    rw [recvInto_in buf (by omega) (by omega), hz]
  · rw [if_neg h2, if_neg h2]

/-- A string that does not end in a datagram: it ends where the buffer was zero, and goes on
where it was not. -/
theorem cstr_recvInto {d : List UInt8} {k : Nat} (hk : 0 < k) (hk' : k < mcastMsgLen)
    (hno : 0 ∉ (d.take mcastMsgLen).drop k) :
    (cstr mcastMsgLen ((recvInto (fun _ => 0) d).ptr k)).length < mcastMsgLen ∧
      (cstr mcastMsgLen ((recvInto (fun _ => 97) d).ptr k)).length = mcastMsgLen := by
  have hfull : (d.take mcastMsgLen).length ≤ mcastMsgLen := List.length_take_le _ _
  constructor
  · apply cstr_length_lt (k := max k (d.take mcastMsgLen).length - k)
    · omega
    · rw [Mem.ptr_apply, recvInto_out _ (by omega)]
  · apply cstr_length_of_ne
    intro i h0 _
    rw [Mem.ptr_apply]
    by_cases hin : (k : Int) + i < (d.take mcastMsgLen).length
    · intro hz
      obtain ⟨j, hj⟩ : ∃ j : Nat, (j : Int) = k + i := ⟨(k + i).toNat, by omega⟩
      rw [← hj, recvInto_in _ (by omega) (by omega)] at hz
      exact hno (zero_mem_drop.mpr ⟨j, by omega, by omega, hz⟩)
    · rw [recvInto_out _ (by omega)]
      decide

/-- The name of a notification ends at its zero, wherever that is. -/
theorem notiCall_name (pkg : Mem) : (notiCall pkg).name = cstr mcastMsgLen (pkg.ptr 13) := by
  unfold notiCall ServNoti.decode
  simp only [Mem.ptr_ptr]
  rfl

/-- So does the name of a library. -/
theorem reloadReq_soname (pkg : Mem) :
    (reloadReq pkg).soname = cstr mcastMsgLen (pkg.ptr 39) := by
  unfold reloadReq
  simp only [Mem.ptr_ptr]
  rfl

/-- **Only such a datagram is**: of any other, two buffers show two things. -/
theorem ended_of_seen {d : List UInt8} (h : seen d (fun _ => 0) = seen d (fun _ => 97)) :
    Ended d := by
  by_cases hd : d = []
  · exact Or.inl hd
  unfold seen at h
  rw [if_neg hd, if_neg hd, Option.some.injEq] at h
  have hlen : 5 ≤ (d.take mcastMsgLen).length := by
    by_contra hshort
    -- the type is not the datagram's
    unfold view at h
    rw [recvInto_out _ (by omega), recvInto_out _ (by omega), if_neg (by decide),
      if_neg (by decide), if_neg (by decide), if_neg (by decide)] at h
    exact absurd (View.other.inj h) (by decide)
  have htype : ∀ buf, recvInto buf d 4 = ofBytes (d.take mcastMsgLen) 4 := fun buf =>
    recvInto_in buf (by decide) (by omega)
  unfold view at h
  rw [htype, htype] at h
  refine Or.inr ⟨hlen, fun h1 => ?_, fun h2 => ?_⟩
  · by_contra hno
    obtain ⟨hlt, heq⟩ := cstr_recvInto (by decide) (by decide) hno
    rw [if_pos h1, if_pos h1] at h
    have hname := congrArg (fun c => c.name.length) (View.noti.inj h)
    simp only [notiCall_name] at hname
    exact absurd (hname.trans heq) (Nat.ne_of_lt hlt)
  · by_contra hno
    obtain ⟨hlt, heq⟩ := cstr_recvInto (by decide) (by decide) hno
    have h1 : ofBytes (d.take mcastMsgLen) 4 ≠ McastCmd.servNoti.code := by
      rw [h2]
      decide
    rw [if_neg h1, if_neg h1, if_pos h2, if_pos h2] at h
    have hname := congrArg (fun rs => rs.soname.length) (View.reload.inj h)
    simp only [reloadReq_soname] at hname
    exact absurd (hname.trans heq) (Nat.ne_of_lt hlt)

/-! ## Histories -/

/-- Handling a packet leaves the buffer as it is. -/
theorem doPkg_buf (l : McastLbl) (s : McastSt) : (doPkg name w l s).buf = s.buf := by
  rw [doPkg_view]
  cases view s.buf with
  | noti c => rfl
  | reload rs => rfl
  | other type => rfl

/-- The buffer of a worker that has received nothing, and is followed by zeros. -/
theorem after_nil_buf (boot : BootEnv) :
    (after name w boot (fun _ => 0) []).buf = fun _ => 0 := by
  funext i
  exact ite_self 0

/-- A datagram that fills the buffer. -/
def flood (env : CallEnv) (fs : List UInt8 → DlEnv) : McastLbl :=
  { d := List.replicate mcastMsgLen 97, env, fs }

/-- The buffer behind it, with the like in memory. -/
theorem after_flood_buf (boot : BootEnv) (env : CallEnv) (fs : List UInt8 → DlEnv) :
    (after name w boot (fun _ => 97) [flood env fs]).buf = fun _ => 97 := by
  have htake : (List.replicate mcastMsgLen (97 : UInt8)).take mcastMsgLen =
      List.replicate mcastMsgLen 97 := by
    rw [List.take_replicate, Nat.min_self]
  have hlen : (List.replicate mcastMsgLen (97 : UInt8)).length = mcastMsgLen :=
    List.length_replicate
  have hne : List.replicate mcastMsgLen (97 : UInt8) ≠ [] := by
    intro hnil
    rw [hnil] at hlen
    cases hlen
  unfold after received
  rw [List.foldl_cons, List.foldl_nil]
  unfold recvPkg flood
  rw [if_neg hne, doPkg_buf]
  funext i
  by_cases hi : 0 ≤ i ∧ i < mcastMsgLen
  · show recvInto _ _ i = 97
    obtain ⟨j, rfl⟩ : ∃ j : Nat, (j : Int) = i := ⟨i.toNat, by omega⟩
    rw [recvInto_in _ hi.1 (by rw [htake, hlen]; exact hi.2)]
    rw [ofBytes_getElem (by rw [htake, hlen]; omega)]
    simp
  · show recvInto _ _ i = 97
    unfold recvInto
    rw [htake, hlen, memcpy_out (by omega)]
    exact if_neg hi

/-- What is seen is the datagram's own exactly if its strings end in it. -/
theorem ownBytes_iff (boot : BootEnv) (d : List UInt8) : OwnBytes name w boot d ↔ Ended d := by
  constructor
  · intro h
    let env : CallEnv := { fresh := fun _ => 0, ptr := 0, now := 0 }
    have hseen := h (fun _ => 0) (fun _ => 97) [] [flood env fun _ => fullDl]
    rw [after_nil_buf, after_flood_buf] at hseen
    exact ended_of_seen hseen
  · intro h mem mem' hist hist'
    exact seen_of_ended h _ _

/-! ## Short datagrams -/

/-- The bytes in front of a cut. -/
theorem ofBytes_take {d : List UInt8} {n i : Nat} (hi : i < n) :
    ofBytes (d.take n) i = ofBytes d i := by
  unfold ofBytes
  rw [Int.toNat_natCast, List.getD_eq_getElem?_getD, List.getElem?_take_of_lt hi,
    List.getD_eq_getElem?_getD]

/-- What is done for a datagram is done by its view. -/
theorem recvPkg_view {l : McastLbl} (hd : l.d ≠ []) (s : McastSt) :
    recvPkg name w l s =
      runView name w l { s with buf := recvInto s.buf l.d } (view (recvInto s.buf l.d)) := by
  unfold recvPkg
  rw [if_neg hd, doPkg_view]

/-- A datagram that meets the condition and is short changes nothing. -/
theorem shortKept_of_whole {boot : BootEnv} {d : List UInt8} (h : Whole name w d) :
    ShortKept name w boot d := by
  intro hshort mem hist env fs s t
  by_cases hd : d = []
  · have hsame : t = s := if_pos hd
    rw [hsame]
    exact ⟨rfl, rfl, rfl⟩
  obtain ⟨hlen, hnoti, hreload⟩ := h.resolve_left hd
  have htype : ofBytes (d.take mcastMsgLen) 4 = ofBytes d 4 := ofBytes_take (i := 4) (by decide)
  have hle : (d.take mcastMsgLen).length ≤ d.length := by
    rw [List.length_take]
    omega
  unfold Short bodyLen at hshort
  rw [← htype] at hshort
  simp only [mcastPkgLen, servNotiLen, reloadSoLen] at hshort
  by_cases h1 : ofBytes (d.take mcastMsgLen) 4 = McastCmd.servNoti.code
  · have hwhole := (hnoti h1).1
    rw [if_pos h1] at hshort
    omega
  rw [if_neg h1] at hshort
  by_cases h2 : ofBytes (d.take mcastMsgLen) 4 = McastCmd.reloadSo.code
  · rw [if_pos h2] at hshort
    obtain ⟨hends, hwhole | hother⟩ := hreload h2
    · omega
    -- a request for another worker, whatever is in the buffer
    have hended : Ended d := Or.inr ⟨hlen, fun h => absurd h h1, fun _ => hends⟩
    have hsee := seen_of_ended hended s.buf (fun _ => 0)
    have htype0 : recvInto (fun _ => 0) d 4 = ofBytes (d.take mcastMsgLen) 4 :=
      recvInto_in _ (by decide) (by omega)
    have hview : view (recvInto (fun _ => 0) d) =
        .reload (reloadReq (recvInto (fun _ => 0) d)) := by
      unfold view
      rw [htype0, if_neg h1, if_pos h2]
    unfold seen at hsee
    rw [if_neg hd, if_neg hd, Option.some.injEq, hview] at hsee
    have ht : t = { s with buf := recvInto s.buf d } := by
      show recvPkg name w ⟨d, env, fs⟩ s = _
      rw [recvPkg_view name w hd, hsee]
      simp only [runView, doMcastRealodSo_idle name w (Or.inl hother)]
    rw [ht]
    exact ⟨rfl, rfl, rfl⟩
  · rw [if_neg h2] at hshort
    omega

/-- A system on which a file can be read and is no library. -/
def noDl : DlEnv := { readable := true, opens := false, has := fun _ => true }

/-- A short datagram that changes nothing meets the condition, if its strings end. -/
theorem whole_of_shortKept {boot : BootEnv} {d : List UInt8} (hended : Ended d)
    (hkept : ShortKept name w boot d) : Whole name w d := by
  by_cases hd : d = []
  · exact Or.inl hd
  obtain ⟨hlen, hnoti, hreload⟩ := hended.resolve_left hd
  let env : CallEnv := { fresh := fun _ => 0, ptr := 0, now := 0 }
  have htype : ofBytes (d.take mcastMsgLen) 4 = ofBytes d 4 := ofBytes_take (i := 4) (by decide)
  have htype0 : recvInto (fun _ => 0) d 4 = ofBytes (d.take mcastMsgLen) 4 :=
    recvInto_in _ (by decide) (by omega)
  have hmin : (d.take mcastMsgLen).length = min 4096 d.length := List.length_take
  have hnew := fun hshort => hkept hshort (fun _ => 0) [] env (fun _ => noDl)
  simp only [recvPkg_view name w (l := ⟨d, env, fun _ => noDl⟩) hd, after_nil_buf] at hnew
  unfold Short bodyLen view at hnew
  rw [← htype, htype0] at hnew
  simp only [mcastPkgLen, servNotiLen, reloadSoLen] at hnew
  refine Or.inr ⟨hlen, fun h1 => ⟨?_, hnoti h1⟩, fun h2 => ⟨hreload h2, ?_⟩⟩
  · by_contra hshort
    rw [if_pos h1, if_pos h1] at hnew
    -- an empty cache gets an entry
    have hservs := (hnew (by omega)).1
    cases hservs
  · by_contra hboth
    rw [not_or, not_not] at hboth
    have h1 : ofBytes (d.take mcastMsgLen) 4 ≠ McastCmd.servNoti.code := by
      rw [h2]
      decide
    rw [if_neg h1, if_pos h2, if_neg h1, if_pos h2] at hnew
    have hso := (hnew (by omega)).2.1
    obtain ⟨h, hhandle, _⟩ := (regSo_loads boot.loads noLogic).2
    have hlib : ¬ Loads noDl := fun hl => absurd hl.1 (by decide)
    have hnone := @doMcastRealodSo_fails name w _ (fun _ => noDl) hboth.2 rfl hlib
      (after name w boot (fun _ => 0) []).logic
    have hsome : (after name w boot (fun _ => 0) []).logic.so.handle = some h := hhandle
    rw [← hso] at hsome
    exact absurd (hnone.symm.trans hsome) (by simp)

/-- **A datagram speaks for itself** exactly when it is whole: for all histories of datagrams
and whatever follows the buffer in memory, what is done for it depends on its bytes
only, and if it is short it changes neither cache nor logic, if and only if it is empty,
or has a header and, as a notification, 45 bytes with the name ended, and, as a request,
its path ended and 167 bytes or another addressee. -/
theorem datagram_own_iff (boot : BootEnv) (d : List UInt8) :
    OwnBytes name w boot d ∧ ShortKept name w boot d ↔ Whole name w d := by
  rw [ownBytes_iff]
  constructor
  · rintro ⟨hended, hkept⟩
    exact whole_of_shortKept name w hended hkept
  · intro h
    refine ⟨?_, shortKept_of_whole name w h⟩
    exact h.imp_right fun hwhole =>
      ⟨hwhole.1, fun h1 => (hwhole.2.1 h1).2, fun h2 => (hwhole.2.2 h2).1⟩

/-- The header of a notification, alone: its fields are those of earlier datagrams, and
they enter the cache. -/
theorem headerOnly_not_own :
    ¬ OwnBytes echoName (workOf 1 8080) ⟨fullDl, by decide⟩ [5, 0, 0, 0, 1] ∧
      ¬ ShortKept echoName (workOf 1 8080) ⟨fullDl, by decide⟩ [5, 0, 0, 0, 1] := by
  constructor
  · intro h
    rw [ownBytes_iff] at h
    obtain ⟨_, hnoti, _⟩ := h.resolve_left (by decide)
    exact absurd (hnoti rfl) (by decide)
  · intro h
    let env : CallEnv := { fresh := fun _ => 0, ptr := 0, now := 0 }
    have hservs := (h (by decide) (fun _ => 0) [] env fun _ => fullDl).1
    cases hservs

end SServer.Mcast
