import SServer.Mcast.Noti

/-!
# SServer.Mcast.Reload — the library with the service's logic

`do_mcast_realod_so` closes the library that a worker runs and opens another one;
`reg_so` then resolves the pointers of `so` one at a time. What the dynamic linker
answers is a choice of the environment. Each library that `dlopen` loads is another one,
and its symbols are of use as long as it is open.

The result: `so` always points into the one open library, and a request that fails changes
nothing, exactly when no request that is carried out names a library that fails to load.

* `doMcastRealodSo_cases`: what a request does: nothing, or it opens the library in place of the
  old one.
* `reloadStep_cases`: one request, on either side of the condition.
* `reload_atomic_iff`: the result, over runs of requests with any answers of the linker.
* `partDl_not_atomic`: a library without `reload_logic` leaves the worker without one.

What the code of a library does when it is entered is outside; a call through a pointer into a
closed library has no meaning here.
-/

namespace SServer.Mcast

open SServer.Lib

/-! ## The interface -/

/-- The functions of `serv_if_t`. -/
inductive Func where
  | handleTimer
  | procCliMsg
  | procServMsg
  | onCliClosed
  | onServClosed
  | servInit
  | servFini
  | getMsgLen
  | reloadLogic
  | procMcastMsg
deriving DecidableEq, Repr

/-- The functions that `reg_so` resolves by `DLFUNC`, in its order. -/
def dlFuncs : List Func :=
  [.servInit, .servFini, .handleTimer, .getMsgLen, .procCliMsg, .procServMsg, .onCliClosed,
    .onServClosed, .reloadLogic]

/-- A symbol of a loaded library. -/
structure Sym where
  lib : Nat
  func : Func
deriving DecidableEq, Repr

/-- `serv_if_t`. -/
structure ServIf where
  handle : Option Nat
  ptr : Func → Option Sym

/-- Store a pointer. -/
def ServIf.set (so : ServIf) (f : Func) (v : Option Sym) : ServIf :=
  { so with ptr := Function.update so.ptr f v }

/-- `so`, the libraries that are open, the number of the next one, and the calls made
through `so`, the last one first. -/
structure Logic where
  so : ServIf
  opened : List Nat
  next : Nat
  called : List Sym

/-- What the system answers for a path: `access`, `dlopen` and each `dlsym`. -/
structure DlEnv where
  readable : Bool
  opens : Bool
  has : Func → Bool

/-- The library is loaded and has the symbols that `reg_so` demands. -/
def Loads (dl : DlEnv) : Prop := dl.opens = true ∧ ∀ f ∈ dlFuncs, dl.has f = true

instance (dl : DlEnv) : Decidable (Loads dl) := inferInstanceAs (Decidable (_ ∧ _))

/-- `dlsym`. -/
def dlsym (dl : DlEnv) (h : Nat) (f : Func) : Option Sym := if dl.has f then some ⟨h, f⟩ else none

/-- `dlclose`. -/
def dlclose (h : Nat) (s : Logic) : Logic := { s with opened := s.opened.filter (· ≠ h) }

/-- `DLFUNC`, with `goto out` as an error. -/
def dlfunc (dl : DlEnv) (h : Nat) (f : Func) (s : Logic) : Except Logic Logic :=
  let s := { s with so := s.so.set f (dlsym dl h f) }
  if dl.has f then .ok s
  else
    let s := dlclose h s
    .error { s with so := { s.so with handle := none } }

/-- `DLFUNC` for one function after another. -/
def dlfuncs (dl : DlEnv) (h : Nat) : List Func → Logic → Except Logic Logic
  | [], s => .ok s
  | f :: fs, s => (dlfunc dl h f s).bind (dlfuncs dl h fs)

/-- `reg_so`. -/
def regSo (dl : DlEnv) (s : Logic) : Logic × Int :=
  if dl.opens then
    let h := s.next
    let s := { s with so := { s.so with handle := some h }, opened := h :: s.opened, next := h + 1 }
    match dlfuncs dl h dlFuncs s with
    | .error s => (s, -1)
    | .ok s => ({ s with so := s.so.set .procMcastMsg (dlsym dl h .procMcastMsg) }, 0)
  else ({ s with so := { s.so with handle := none } }, -1)

/-- `unreg_so`. -/
def unregSo (s : Logic) : Logic :=
  match s.so.handle with
  | none => s
  | some h =>
    let s := dlclose h s
    { s with so := { s.so with handle := none } }

/-- A call through a pointer, if there is one. -/
def callPtr (f : Func) (s : Logic) : Logic :=
  match s.so.ptr f with
  | none => s
  | some v => { s with called := v :: s.called }

/-! ## A request -/

/-- `reload_so_t`, with its strings. -/
structure ReloadSo where
  id : UInt16
  servname : List UInt8
  soname : List UInt8
deriving DecidableEq, Repr

variable (name : SrvName) (w : Work)

/-- `do_mcast_realod_so`; `fs` is what the system answers for each path. -/
def doMcastRealodSo (rs : ReloadSo) (fs : List UInt8 → DlEnv) (s : Logic) : Logic × Int :=
  if name.chars ≠ rs.servname then (s, 0)
  else if rs.id ≠ 0 ∧ rs.id.toUInt32 ≠ getServId w then (s, 0)
  else if (fs rs.soname).readable = false then (s, 0)
  else
    let (s, ret) := regSo (fs rs.soname) (unregSo s)
    if ret ≠ 0 then (s, -1) else (callPtr .reloadLogic s, 0)

/-- The request is one for this worker. -/
def Aimed (rs : ReloadSo) : Prop :=
  rs.servname = name.chars ∧ (rs.id = 0 ∨ rs.id.toUInt32 = getServId w)

instance (rs : ReloadSo) : Decidable (Aimed name w rs) := inferInstanceAs (Decidable (_ ∧ _))

/-- A request, and what the system answers while it is handled. -/
structure ReloadLbl where
  rs : ReloadSo
  fs : List UInt8 → DlEnv

/-- One request. -/
def reloadStep (l : ReloadLbl) (s : Logic) : Option Logic :=
  some (doMcastRealodSo name w l.rs l.fs s).1

/-- What is to hold between requests: `so` has an open library, and all pointers that
`reg_so` demands are its symbols. -/
def Resolved (s : Logic) : Prop :=
  ∃ h, s.so.handle = some h ∧ h ∈ s.opened ∧ ∀ f ∈ dlFuncs, s.so.ptr f = some ⟨h, f⟩

/-- What is to hold of a request: a library that does not load leaves `so` as it was. -/
def FailKeeps (l : ReloadLbl) (s : Logic) : Prop :=
  ¬ Loads (l.fs l.rs.soname) → (doMcastRealodSo name w l.rs l.fs s).1.so = s.so

/-- The condition: the request is not for this worker, or its file cannot be read, or the
library loads. -/
def Harmless (l : ReloadLbl) (_ : Logic) : Prop :=
  ¬ Aimed name w l.rs ∨ (l.fs l.rs.soname).readable = false ∨ Loads (l.fs l.rs.soname)

instance (l : ReloadLbl) (s : Logic) : Decidable (Harmless name w l s) :=
  inferInstanceAs (Decidable (_ ∨ _))

/-! ## Loading -/

/-- All symbols found: the pointers are set, and nothing else changes. -/
theorem dlfuncs_ok {dl : DlEnv} {fs : List Func} (hall : ∀ f ∈ fs, dl.has f = true) (h : Nat)
    (s : Logic) :
    ∃ t, dlfuncs dl h fs s = .ok t ∧ t.so.handle = s.so.handle ∧ t.opened = s.opened ∧
      (∀ f ∈ fs, t.so.ptr f = some ⟨h, f⟩) ∧ ∀ f, f ∉ fs → t.so.ptr f = s.so.ptr f := by
  induction fs generalizing s with
  | nil => exact ⟨s, rfl, rfl, rfl, by simp, fun _ _ => rfl⟩
  | cons f fs ih =>
    have hf : dl.has f = true := hall f List.mem_cons_self
    have hstep : dlfunc dl h f s = .ok { s with so := s.so.set f (some ⟨h, f⟩) } := by
      unfold dlfunc dlsym
      rw [if_pos hf, if_pos hf]
    obtain ⟨t, ht, hhandle, hopened, hin, hout⟩ :=
      ih (fun g hg => hall g (List.mem_cons_of_mem f hg)) { s with so := s.so.set f (some ⟨h, f⟩) }
    refine ⟨t, ?_, hhandle, hopened, fun g hg => ?_, fun g hg => ?_⟩
    · show (dlfunc dl h f s).bind (dlfuncs dl h fs) = .ok t
      rw [hstep]
      exact ht
    · by_cases hmem : g ∈ fs
      · exact hin g hmem
      · -- resolved by this step, and by no later one
        have hgf : g = f := (List.mem_cons.mp hg).resolve_right hmem
        rw [hout g hmem, hgf]
        exact Function.update_self f _ _
    · rw [List.mem_cons, not_or] at hg
      rw [hout g hg.2]
      exact Function.update_of_ne hg.1 _ _

/-- A symbol missing: the library is closed again. -/
theorem dlfuncs_error {dl : DlEnv} {fs : List Func} (hlack : ¬ ∀ f ∈ fs, dl.has f = true) (h : Nat)
    (s : Logic) : ∃ t, dlfuncs dl h fs s = .error t ∧ t.so.handle = none := by
  induction fs generalizing s with
  | nil => exact absurd (by simp) hlack
  | cons f fs ih =>
    unfold dlfuncs
    by_cases hf : dl.has f = true
    · have hrest : ¬ ∀ g ∈ fs, dl.has g = true := by
        intro hall
        exact hlack (by simpa [hf] using hall)
      obtain ⟨t, ht, hnone⟩ := ih hrest { s with so := s.so.set f (dlsym dl h f) }
      refine ⟨t, ?_, hnone⟩
      unfold dlfunc
      rw [if_pos hf]
      exact ht
    · unfold dlfunc
      rw [if_neg hf]
      exact ⟨_, rfl, rfl⟩

/-- A library that loads. -/
theorem regSo_loads {dl : DlEnv} (hl : Loads dl) (s : Logic) :
    (regSo dl s).2 = 0 ∧ Resolved (regSo dl s).1 := by
  unfold regSo
  rw [if_pos hl.1]
  obtain ⟨t, ht, hhandle, hopened, hin, _⟩ := dlfuncs_ok hl.2 s.next
    { s with so := { s.so with handle := some s.next }, opened := s.next :: s.opened,
             next := s.next + 1 }
  simp only [ht]
  refine ⟨trivial, s.next, hhandle, ?_, fun f hf => ?_⟩
  · rw [hopened]
    exact List.mem_cons_self
  · have hne : f ≠ .procMcastMsg := by
      rintro rfl
      exact absurd hf (by decide)
    rw [← hin f hf]
    exact Function.update_of_ne hne _ _

/-- A library that does not. -/
theorem regSo_fails {dl : DlEnv} (hl : ¬ Loads dl) (s : Logic) :
    (regSo dl s).2 = -1 ∧ (regSo dl s).1.so.handle = none := by
  unfold regSo
  by_cases hopens : dl.opens = true
  · obtain ⟨t, ht, hnone⟩ := dlfuncs_error (fun hall => hl ⟨hopens, hall⟩) s.next
      { s with so := { s.so with handle := some s.next }, opened := s.next :: s.opened,
               next := s.next + 1 }
    rw [if_pos hopens]
    simp only [ht]
    exact ⟨trivial, hnone⟩
  · rw [if_neg hopens]
    exact ⟨rfl, rfl⟩

/-- A call changes neither `so` nor the open libraries. -/
theorem callPtr_so (f : Func) (s : Logic) :
    (callPtr f s).so = s.so ∧ (callPtr f s).opened = s.opened := by
  unfold callPtr
  cases s.so.ptr f with
  | none => exact ⟨rfl, rfl⟩
  | some v => exact ⟨rfl, rfl⟩

/-! ## One request -/

/-- **What a request does**: nothing, or it opens the library in place of the old one. -/
theorem doMcastRealodSo_cases (rs : ReloadSo) (fs : List UInt8 → DlEnv) (s : Logic) :
    (¬ Aimed name w rs ∨ (fs rs.soname).readable = false) ∧
        doMcastRealodSo name w rs fs s = (s, 0) ∨
      (Aimed name w rs ∧ (fs rs.soname).readable = true) ∧
        ((regSo (fs rs.soname) (unregSo s)).2 = 0 ∧
            doMcastRealodSo name w rs fs s =
              (callPtr .reloadLogic (regSo (fs rs.soname) (unregSo s)).1, 0) ∨
          (regSo (fs rs.soname) (unregSo s)).2 ≠ 0 ∧
            doMcastRealodSo name w rs fs s = ((regSo (fs rs.soname) (unregSo s)).1, -1)) := by
  unfold doMcastRealodSo
  by_cases hname : name.chars ≠ rs.servname
  · rw [if_pos hname]
    exact Or.inl ⟨Or.inl fun haimed => hname haimed.1.symm, rfl⟩
  rw [if_neg hname]
  by_cases hid : rs.id ≠ 0 ∧ rs.id.toUInt32 ≠ getServId w
  · rw [if_pos hid]
    exact Or.inl ⟨Or.inl fun haimed => haimed.2.elim hid.1 hid.2, rfl⟩
  rw [if_neg hid]
  by_cases hread : (fs rs.soname).readable = false
  · rw [if_pos hread]
    exact Or.inl ⟨Or.inr hread, rfl⟩
  rw [if_neg hread]
  have haimed : Aimed name w rs := by
    refine ⟨(not_ne_iff.mp hname).symm, ?_⟩
    by_contra hno
    exact hid (not_or.mp hno)
  refine Or.inr ⟨⟨haimed, by simpa using hread⟩, ?_⟩
  by_cases hret : (regSo (fs rs.soname) (unregSo s)).2 = 0
  · exact Or.inl ⟨hret, if_neg (not_not_intro hret)⟩
  · exact Or.inr ⟨hret, if_pos hret⟩

/-- A request that is not carried out changes nothing. -/
theorem doMcastRealodSo_idle {rs : ReloadSo} {fs : List UInt8 → DlEnv}
    (h : ¬ Aimed name w rs ∨ (fs rs.soname).readable = false) (s : Logic) :
    doMcastRealodSo name w rs fs s = (s, 0) := by
  obtain ⟨_, hidle⟩ | ⟨⟨haimed, hread⟩, _⟩ := doMcastRealodSo_cases name w rs fs s
  · exact hidle
  · rcases h with hno | hno
    · exact absurd haimed hno
    · exact absurd (hread.symm.trans hno) (by decide)

/-- A request that is carried out, with a library that does not load, leaves none. -/
theorem doMcastRealodSo_fails {rs : ReloadSo} {fs : List UInt8 → DlEnv} (haimed : Aimed name w rs)
    (hread : (fs rs.soname).readable = true) (hl : ¬ Loads (fs rs.soname)) (s : Logic) :
    (doMcastRealodSo name w rs fs s).1.so.handle = none := by
  obtain ⟨hret, hnone⟩ := regSo_fails hl (unregSo s)
  obtain ⟨hidle, _⟩ | ⟨_, ⟨hzero, _⟩ | ⟨_, hres⟩⟩ := doMcastRealodSo_cases name w rs fs s
  · rcases hidle with hno | hno
    · exact absurd haimed hno
    · exact absurd (hread.symm.trans hno) (by decide)
  · exact absurd (hzero.symm.trans hret) (by decide)
  · rw [hres]
    exact hnone

/-- **One request**, on either side of the condition. -/
theorem reloadStep_cases (l : ReloadLbl) (s t : Logic) (hs : Resolved s)
    (hstep : reloadStep name w l s = some t) :
    Harmless name w l s ∧ FailKeeps name w l s ∧ Resolved t ∨
      ¬ Harmless name w l s ∧ ¬ (FailKeeps name w l s ∧ Resolved t) := by
  rcases l with ⟨rs, fs⟩
  unfold FailKeeps
  cases hstep
  simp only
  obtain ⟨hidle, hres⟩ | ⟨⟨haimed, hread⟩, hcases⟩ := doMcastRealodSo_cases name w rs fs s
  · rw [hres]
    exact Or.inl ⟨hidle.elim Or.inl fun h => Or.inr (Or.inl h), fun _ => rfl, hs⟩
  by_cases hl : Loads (fs rs.soname)
  · obtain ⟨hzero, hresolved⟩ := regSo_loads hl (unregSo s)
    refine Or.inl ⟨Or.inr (Or.inr hl), fun hno => absurd hl hno, ?_⟩
    obtain ⟨_, hres⟩ | ⟨hret, _⟩ := hcases
    · rw [hres]
      have hkept := callPtr_so .reloadLogic (regSo (fs rs.soname) (unregSo s)).1
      unfold Resolved
      rw [hkept.1, hkept.2]
      exact hresolved
    · exact absurd hzero hret
  · refine Or.inr ⟨fun hh => ?_, fun hboth => ?_⟩
    · rcases hh with h | h | h
      · exact h haimed
      · exact absurd (hread.symm.trans h) (by decide)
      · exact hl h
    · obtain ⟨h, hhandle, _⟩ := hboth.2
      rw [doMcastRealodSo_fails name w haimed hread hl s] at hhandle
      cases hhandle

/-! ## Runs -/

/-- `so` and the linker before anything is loaded. -/
def noLogic : Logic :=
  { so := { handle := none, ptr := fun _ => none }, opened := [], next := 0, called := [] }

/-- What the system answers for `text_so` when the server starts: it loads. -/
structure BootEnv where
  dl : DlEnv
  loads : Loads dl

/-- The logic that a worker inherits from the `reg_so` of `master_init`. -/
def booted (boot : BootEnv) : Logic := (regSo boot.dl noLogic).1

/-- **Hot reload is atomic** exactly for libraries that load: in every run of requests, with
any answers of the dynamic linker, `so` is resolved from one open library after each
request and a library that does not load leaves it as it was, if and only if no request
for this worker names a readable file that does not load as a library or lacks a symbol. -/
theorem reload_atomic_iff (boot : BootEnv) (ls : List ReloadLbl) :
    (Throughout (reloadStep name w) Resolved ls (booted boot) ∧
        Along (reloadStep name w) (FailKeeps name w) ls (booted boot)) ↔
      Along (reloadStep name w) (Harmless name w) ls (booted boot) :=
  throughout_and_along_iff Resolved (fun _ h => h) (reloadStep_cases name w)
    (regSo_loads boot.loads noLogic).2

/-- A library with all symbols. -/
def fullDl : DlEnv := { readable := true, opens := true, has := fun _ => true }

/-- A library without `reload_logic`. -/
def partDl : DlEnv := { fullDl with has := fun f => f ≠ .reloadLogic }

/-- A library that lacks `reload_logic` leaves the worker without one. -/
theorem partDl_not_atomic :
    ¬ (Throughout (reloadStep echoName (workOf 1 8080)) Resolved
          [⟨⟨0, echoName.chars, []⟩, fun _ => partDl⟩] (booted ⟨fullDl, by decide⟩) ∧
        Along (reloadStep echoName (workOf 1 8080)) (FailKeeps echoName (workOf 1 8080))
          [⟨⟨0, echoName.chars, []⟩, fun _ => partDl⟩] (booted ⟨fullDl, by decide⟩)) := by
  rintro ⟨hthrough, _⟩
  obtain ⟨h, hhandle, _⟩ := hthrough.2 _ rfl
  have hnone : (doMcastRealodSo echoName (workOf 1 8080) ⟨0, echoName.chars, []⟩
      (fun _ => partDl) (booted ⟨fullDl, by decide⟩)).1.so.handle = none := by
    decide
  exact absurd (hnone.symm.trans hhandle) (by simp)

end SServer.Mcast
