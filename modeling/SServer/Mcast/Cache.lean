import SServer.Lib.CStr
import SServer.Lib.Run

/-!
# SServer.Mcast.Cache — the services a worker has heard of

`add_serv_to_cach` keeps a table of services by name, each with a table of addresses by
id. The keys are pointers into the records: the name of a service is what stands in
its `servcach_t`, 16 bytes for a name that the wire gives 32, with the pointer to the
address table behind them. The hash tables are finite maps by string and by int.

The result: the cache answers with the last address that was notified, exactly when each
name new to it fits the 16 bytes (or the pointer happens to spell the rest of it).

* `cacheStep_cases`: one call, on either side of the condition.
* `cache_iff_names_kept`: the result, over whole runs of calls with names of any length.
* `longNames_not_cacheOk`: a name of 16 letters is not found again, and one of 24 is written
  past the record.

The hash tables are taken for what they are documented to be. Records are never freed by the
source, so none is here; `do_del_expired_addr` has no body.
-/

namespace SServer.Mcast

open SServer.Lib

/-! ## Finite maps by a key in the value -/

/-- Change the first value that a test finds. -/
def updateFirst {α : Type} (p : α → Bool) (f : α → α) : List α → List α
  | [] => []
  | a :: as => if p a then f a :: as else a :: updateFirst p f as

/-- The element that is found is the one that was changed. -/
theorem find?_updateFirst {α : Type} {p : α → Bool} {f : α → α} {as : List α} {a : α}
    (h : as.find? p = some a) (hf : p (f a) = true) :
    (updateFirst p f as).find? p = some (f a) := by
  induction as with
  | nil => cases h
  | cons b as ih =>
    unfold updateFirst
    cases hb : p b with
    | true =>
      rw [List.find?_cons_of_pos hb] at h
      cases h
      rw [if_pos rfl, List.find?_cons_of_pos hf]
    | false =>
      have hno : ¬ p b = true := by simp [hb]
      rw [List.find?_cons_of_neg hno] at h
      rw [if_neg (by simp), List.find?_cons_of_neg hno]
      exact ih h

/-- Another key is found as before. -/
theorem find?_updateFirst_ne {α : Type} {p q : α → Bool} {f : α → α}
    (hpq : ∀ a, p a = true → q a = false ∧ q (f a) = false) (as : List α) :
    (updateFirst p f as).find? q = as.find? q := by
  induction as with
  | nil => rfl
  | cons a as ih =>
    unfold updateFirst
    cases ha : p a with
    | true =>
      rcases hpq a ha with ⟨hold, hnew⟩
      rw [if_pos rfl, List.find?_cons_of_neg (by simp [hnew]),
        List.find?_cons_of_neg (by simp [hold])]
    | false =>
      rw [if_neg (by simp)]
      by_cases hq : q a = true
      · rw [List.find?_cons_of_pos hq, List.find?_cons_of_pos hq]
      · rw [List.find?_cons_of_neg hq, List.find?_cons_of_neg hq, ih]

/-! ## Records -/

/-- `addrcach_t`. -/
structure AddrCach where
  servId : Int32
  ip : UInt32
  port : UInt16
  lastSyn : UInt32

/-- `servcach_t`: its bytes, of which the first 16 are `serv_name` and the next 8 the
pointer `addrs`, and the table that this leads to. -/
structure ServCach where
  mem : Mem
  addrs : List AddrCach

/-- `sizeof(servcach_t)`. -/
def servCachLen : Int := 24

/-- The bytes of a pointer. -/
def lePtr (ptr : UInt64) : Mem := fun i => leByte ptr.toNat i.toNat

/-- The arguments of `add_serv_to_cach`. -/
structure ServCall where
  name : List UInt8
  id : UInt32
  ip : UInt32
  port : UInt16

/-- What the call meets: the bytes of a new record, the address of a new table, the time. -/
structure CallEnv where
  fresh : Mem
  ptr : UInt64
  now : UInt32

/-- The record of the key `name`. -/
def findServ (servs : List ServCach) (name : List UInt8) : Option ServCach :=
  servs.find? fun r => Holds r.mem name

/-- The address of the key `id`. -/
def findAddr (addrs : List AddrCach) (id : Int32) : Option AddrCach :=
  addrs.find? fun a => a.servId = id

/-- The entry that the call writes. -/
def ServCall.entry (c : ServCall) (now : UInt32) : AddrCach :=
  { servId := c.id.toInt32, ip := c.ip, port := c.port, lastSyn := now }

/-- The branch for a known service: the address is changed in place, or inserted. -/
def addAddr (c : ServCall) (now : UInt32) (addrs : List AddrCach) : List AddrCach :=
  match findAddr addrs c.id.toInt32 with
  | some _ => updateFirst (fun a => a.servId = c.id.toInt32) (fun _ => c.entry now) addrs
  | none => c.entry now :: addrs

/-- The record of a new service: `strcpy` to `serv_name`, then the store to `addrs`. -/
def newServ (c : ServCall) (env : CallEnv) : ServCach :=
  { mem := memcpy (strcpy env.fresh 0 c.name) 16 (lePtr env.ptr) 8
    addrs := [c.entry env.now] }

/-- `add_serv_to_cach`. A record that is inserted hides one with an equal key, as a
replaced value would be. -/
def addServToCach (c : ServCall) (env : CallEnv) (servs : List ServCach) : List ServCach :=
  match findServ servs c.name with
  | none => newServ c env :: servs
  | some _ => updateFirst (fun r => Holds r.mem c.name)
      (fun r => { r with addrs := addAddr c env.now r.addrs }) servs

/-- The bytes that the call's `strcpy` writes leave the record. -/
def Spills (c : ServCall) (servs : List ServCach) : Prop :=
  findServ servs c.name = none ∧ servCachLen < c.name.length + 1

instance (c : ServCall) (servs : List ServCach) : Decidable (Spills c servs) :=
  inferInstanceAs (Decidable (_ ∧ _))

/-- What the cache tells of a service's worker. -/
def lookup (servs : List ServCach) (name : List UInt8) (id : UInt32) : Option (UInt32 × UInt16) :=
  (findServ servs name).bind fun r =>
    (findAddr r.addrs id.toInt32).map fun a => (a.ip, a.port)

/-! ## Runs -/

/-- The cache, whether a write has left a record, and the calls made, the last one first. -/
structure CacheSt where
  servs : List ServCach
  spilled : Bool
  calls : List ServCall

/-- The cache behind `init_mcast_servs`. -/
def cacheInit : CacheSt := { servs := [], spilled := false, calls := [] }

/-- A call with a string for a name, and what it meets. -/
structure CacheLbl where
  call : ServCall
  env : CallEnv
  noZero : 0 ∉ call.name

/-- One call. -/
def cacheStep (l : CacheLbl) (s : CacheSt) : Option CacheSt :=
  some
    { servs := addServToCach l.call l.env s.servs
      spilled := s.spilled || decide (Spills l.call s.servs)
      calls := l.call :: s.calls }

/-- The address of the last call for a name and an id. -/
def lastCall (calls : List ServCall) (name : List UInt8) (id : UInt32) :
    Option (UInt32 × UInt16) :=
  (calls.find? fun c => c.name = name ∧ c.id = id).map fun c => (c.ip, c.port)

/-- What is to hold: no write has left a record, and every lookup answers with the last
call for its name and id. -/
def CacheOk (s : CacheSt) : Prop :=
  s.spilled = false ∧ ∀ name id, 0 ∉ name → lookup s.servs name id = lastCall s.calls name id

/-- The name of a call survives in a new record: what the pointer overwrites of it, the
pointer spells. -/
def NameKept (c : ServCall) (env : CallEnv) : Prop :=
  ∀ i : Nat, 16 ≤ i → i < 24 → i ≤ c.name.length →
    (c.name ++ [0])[i]? = some (lePtr env.ptr (i - 16))

/-- The condition: the service is known, or its name is at most 23 bytes long and survives in
the new record; a name of at most 15 bytes always does. -/
def Recorded (l : CacheLbl) (s : CacheSt) : Prop :=
  findServ s.servs l.call.name ≠ none ∨ l.call.name.length ≤ 23 ∧ NameKept l.call l.env

/-! ## One call -/

/-- A name of at most 15 bytes is kept. -/
theorem nameKept_of_short {c : ServCall} (h : c.name.length ≤ 15) (env : CallEnv) :
    NameKept c env := by
  intro i hlo _ hhi
  omega

/-- The name in a new record. -/
theorem newServ_holds_iff (c : ServCall) (env : CallEnv) :
    Holds (newServ c env).mem c.name ↔ NameKept c env := by
  have hcopied := holds_iff.mp (holds_strcpy env.fresh 0 c.name)
  rw [holds_iff]
  constructor
  · intro h i hlo hmid hhi
    rw [h i hhi]
    simp only [newServ]
    rw [memcpy_in (by omega)]
  · intro h i hi
    simp only [newServ]
    by_cases hmid : 16 ≤ i ∧ i < 24
    · rw [memcpy_in (by omega)]
      exact h i hmid.1 hmid.2 hi
    · rw [memcpy_out (by omega), hcopied i hi, Mem.ptr_apply, Int.zero_add]

/-- Two ids are one key only if they are one id. -/
theorem toInt32_inj {a b : UInt32} (h : a.toInt32 = b.toInt32) : a = b :=
  congrArg Int32.toUInt32 h

/-- Looking for the address after it was changed or inserted. -/
theorem findAddr_addAddr (c : ServCall) (now : UInt32) (addrs : List AddrCach) (id : UInt32) :
    findAddr (addAddr c now addrs) id.toInt32 =
      if c.id = id then some (c.entry now) else findAddr addrs id.toInt32 := by
  unfold addAddr
  by_cases hid : c.id = id
  · rw [if_pos hid, ← hid]
    cases hfound : findAddr addrs c.id.toInt32 with
    | none => exact List.find?_cons_of_pos (by simp [ServCall.entry])
    | some a => exact find?_updateFirst hfound (by simp [ServCall.entry])
  · have hkey : c.id.toInt32 ≠ id.toInt32 := fun heq => hid (toInt32_inj heq)
    rw [if_neg hid]
    cases hfound : findAddr addrs c.id.toInt32 with
    | none => exact List.find?_cons_of_neg (by simp [ServCall.entry, hkey])
    | some a =>
      refine find?_updateFirst_ne (fun a ha => ?_) addrs
      have hold : a.servId = c.id.toInt32 := by simpa using ha
      exact ⟨by simp [hold, hkey], by simp [ServCall.entry, hkey]⟩

/-- What the call leaves to be found. -/
theorem lookup_addServToCach {c : ServCall} {env : CallEnv} {servs : List ServCach}
    (hnz : 0 ∉ c.name) (hkept : findServ servs c.name ≠ none ∨ NameKept c env)
    {name : List UInt8} (id : UInt32) (hname : 0 ∉ name) :
    lookup (addServToCach c env servs) name id =
      if c.name = name ∧ c.id = id then some (c.ip, c.port) else lookup servs name id := by
  have hother : c.name ≠ name → ∀ r : ServCach, Holds r.mem c.name →
      ¬ Holds r.mem name :=
    fun hne r hr hr' => hne (hr.unique hr' hnz hname)
  unfold addServToCach lookup
  cases hfound : findServ servs c.name with
  | none =>
    have hnew : Holds (newServ c env).mem c.name := by
      rcases hkept with hno | hnew
      · exact absurd hfound hno
      · exact (newServ_holds_iff c env).mpr hnew
    by_cases hsame : c.name = name
    · -- the new record is found, and has the one address
      have hserv : findServ (newServ c env :: servs) name = some (newServ c env) :=
        List.find?_cons_of_pos (by simpa [hsame] using hnew)
      have hnone : findServ servs name = none := hsame ▸ hfound
      rw [hserv, hnone, Option.bind_some, Option.bind_none]
      by_cases hid : c.id = id
      · rw [if_pos ⟨hsame, hid⟩, ← hid]
        simp [findAddr, newServ, ServCall.entry]
      · have hkey : c.id.toInt32 ≠ id.toInt32 := fun heq => hid (toInt32_inj heq)
        rw [if_neg fun h => hid h.2]
        simp [findAddr, newServ, ServCall.entry, hkey]
    · have hserv : findServ (newServ c env :: servs) name = findServ servs name :=
        List.find?_cons_of_neg (by simpa using hother hsame _ hnew)
      rw [hserv, if_neg fun h => hsame h.1]
  | some r =>
    simp only
    have hr : Holds r.mem c.name := by simpa using List.find?_some hfound
    by_cases hsame : c.name = name
    · have hserv : findServ (updateFirst (fun r => Holds r.mem c.name)
          (fun r => { r with addrs := addAddr c env.now r.addrs }) servs) name =
          some { r with addrs := addAddr c env.now r.addrs } := by
        rw [← hsame]
        exact find?_updateFirst hfound (by simpa using hr)
      have hold : findServ servs name = some r := hsame ▸ hfound
      rw [hserv, hold, Option.bind_some, Option.bind_some, findAddr_addAddr]
      by_cases hid : c.id = id
      · rw [if_pos hid, if_pos ⟨hsame, hid⟩]
        rfl
      · rw [if_neg hid, if_neg fun h => hid h.2]
    · have hserv : findServ (updateFirst (fun r => Holds r.mem c.name)
          (fun r => { r with addrs := addAddr c env.now r.addrs }) servs) name =
          findServ servs name := by
        refine find?_updateFirst_ne (fun a ha => ?_) servs
        have hno := hother hsame a (by simpa using ha)
        exact ⟨by simpa using hno, by simpa using hno⟩
      rw [hserv, if_neg fun h => hsame h.1]

/-- The last call for a name and an id counts. -/
theorem lastCall_cons (c : ServCall) (calls : List ServCall) (name : List UInt8) (id : UInt32) :
    lastCall (c :: calls) name id =
      if c.name = name ∧ c.id = id then some (c.ip, c.port) else lastCall calls name id := by
  unfold lastCall
  by_cases hsame : c.name = name ∧ c.id = id
  · rw [if_pos hsame, List.find?_cons_of_pos (by simpa using hsame)]
    rfl
  · rw [if_neg hsame, List.find?_cons_of_neg (by simpa using hsame)]

/-- A new record whose name is lost is not found by it. -/
theorem lookup_lost {c : ServCall} {env : CallEnv} {servs : List ServCach}
    (hnone : findServ servs c.name = none) (hlost : ¬ NameKept c env) (id : UInt32) :
    lookup (addServToCach c env servs) c.name id = none := by
  have hmiss : findServ (newServ c env :: servs) c.name = none := by
    rw [← hnone]
    refine List.find?_cons_of_neg ?_
    rw [decide_eq_true_eq, newServ_holds_iff]
    exact hlost
  unfold addServToCach lookup
  simp only [hnone, hmiss, Option.bind_none]

/-- **One call**, on either side of the condition. -/
theorem cacheStep_cases (l : CacheLbl) (s t : CacheSt) (hs : CacheOk s)
    (hstep : cacheStep l s = some t) :
    Recorded l s ∧ CacheOk t ∨ ¬ Recorded l s ∧ ¬ CacheOk t := by
  rcases l with ⟨c, env, hnz⟩
  cases hstep
  by_cases hrec : Recorded ⟨c, env, hnz⟩ s
  · refine Or.inl ⟨hrec, ?_, fun name id hname => ?_⟩
    · have hstays : ¬ Spills c s.servs := by
        rintro ⟨hnone, hlong⟩
        simp only [servCachLen] at hlong
        rcases hrec with hfound | ⟨hshort, _⟩
        · exact hfound hnone
        · simp only at hshort
          omega
      simp [hs.1, hstays]
    · have hkept : findServ s.servs c.name ≠ none ∨ NameKept c env := hrec.imp_right And.right
      simp only
      rw [lookup_addServToCach hnz hkept id hname, lastCall_cons, hs.2 name id hname]
  · refine Or.inr ⟨hrec, fun hok => ?_⟩
    have hnone : findServ s.servs c.name = none := by
      by_contra hfound
      exact hrec (Or.inl hfound)
    by_cases hkept : NameKept c env
    · -- the name is too long for the record
      have hlong : ¬ c.name.length ≤ 23 := fun hshort => hrec (Or.inr ⟨hshort, hkept⟩)
      have hspills : Spills c s.servs := ⟨hnone, by simp only [servCachLen]; omega⟩
      have hno := hok.1
      simp [hspills] at hno
    · have hanswer := hok.2 c.name c.id hnz
      simp only [lookup_lost hnone hkept, lastCall_cons, and_self, if_true] at hanswer
      cases hanswer

/-- **The cache is the map of the last calls** exactly when all names are kept: in every
state of a run of calls of `add_serv_to_cach`, with any ids and addresses and with names
of any length, no write has left a record and every lookup answers with the last call
for its name and id, if and only if at each call the service is known or its name
survives in its record. -/
theorem cache_iff_names_kept (ls : List CacheLbl) :
    Throughout cacheStep CacheOk ls cacheInit ↔ Along cacheStep Recorded ls cacheInit :=
  throughout_iff_along CacheOk (fun _ h => h) cacheStep_cases ⟨rfl, fun _ _ _ => rfl⟩

/-- The first letters. -/
def letters (n : Nat) : List UInt8 := (List.range n).map fun i => UInt8.ofNat (97 + i)

/-- A notification of a new service with a name of `n` letters. -/
def lettersCall (n : Nat) : ServCall := { name := letters n, id := 7, ip := 16777343, port := 80 }

/-- A new record from zeroed memory, and a table at `0x5570`. -/
def plainEnv : CallEnv := { fresh := fun _ => 0, ptr := 0x5570, now := 0 }

/-- A name of 16 letters is not found again, and one of 24 is written past the record. -/
theorem longNames_not_cacheOk :
    ¬ Throughout cacheStep CacheOk [⟨lettersCall 16, plainEnv, by decide⟩] cacheInit ∧
      ¬ Throughout cacheStep CacheOk [⟨lettersCall 24, plainEnv, by decide⟩] cacheInit := by
  constructor
  · intro hok
    have hanswer := (hok.2 _ rfl).2 (letters 16) 7 (by decide)
    have hlost : lookup (addServToCach (lettersCall 16) plainEnv []) (letters 16) 7 = none := by
      decide +kernel
    exact absurd (hlost.symm.trans hanswer) (by decide +kernel)
  · intro hok
    have hno := (hok.2 _ rfl).1
    exact absurd hno (by decide +kernel)

end SServer.Mcast
