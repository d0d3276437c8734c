import SServer.Lib.Span
import SServer.Table.Restart

/-!
# SServer.Table.Pages — the memory of the receive buffers

A receive buffer is mapped in `handle_read`, with `max_buf_len`, or in `handle_pipe`, with
`max_msg_len`; `free_buff` unmaps it with `max_msg_len`, and the loop of `start_work`
closes connections without `free_buff`. The memory is here as the pages that are mapped
for receive buffers, and the pointer `rbf` as the span of pages it was mapped with.

The result: the mapped pages are those of the open connections, exactly when no connection
is closed whose buffer has more pages than `max_msg_len`, or fewer with another buffer
behind it, no restart closes a connection with a buffer, and no closed one is read.

* `mapRbf_cases`, `freeBuff_cases`, `restart_cases`: mapping, freeing and restarting, on either
  side of the condition.
* `pageStep_cases`: one step, on either side of the condition.
* `pages_exact_iff`: the result, for all positive sizes.
* `openReadClose_not_exact`: with the sizes of the sample configuration, one connection leaves
  2250 of its 2500 pages behind.

The kernel places a mapping anywhere that is free, and a failed `mmap` maps nothing. Pages of
the queues, of the heap and of the code are not among those counted.
-/

namespace SServer.Table

open SServer.Lib SServer.Net

/-! ## Buffers -/

/-- The settings, in bytes, and the size of a page. -/
structure Sizes where
  pageSize : Nat
  maxBufLen : Nat
  maxMsgLen : Nat
  pagePos : 0 < pageSize
  bufPos : 0 < maxBufLen
  msgPos : 0 < maxMsgLen

/-- The pages that a mapping of `n` bytes takes up. -/
def Sizes.pages (z : Sizes) (n : Nat) : Nat := (n + z.pageSize - 1) / z.pageSize

/-- A mapping takes up a page at least. -/
theorem Sizes.pages_pos (z : Sizes) {n : Nat} (hn : 0 < n) : 0 < z.pages n :=
  Nat.div_pos (by omega) z.pagePos

/-- What `mmap` returns for `max_buf_len`, at page `a`. -/
def Sizes.bufSpan (z : Sizes) (a : Nat) : Span :=
  { start := a, len := z.pages z.maxBufLen, pos := z.pages_pos z.bufPos }

/-- What `mmap` returns for `max_msg_len`, at page `a`. -/
def Sizes.msgSpan (z : Sizes) (a : Nat) : Span :=
  { start := a, len := z.pages z.maxMsgLen, pos := z.pages_pos z.msgPos }

/-- `rbf`: null, `MAP_FAILED`, or the start of a span. -/
inductive BufPtr where
  | null
  | failed
  | pages (b : Span)

/-- The span behind `rbf`. -/
def BufPtr.span : BufPtr → Option Span
  | .pages b => some b
  | _ => none

/-- The table, the pointer `rbf` of each entry, and the pages mapped for buffers. -/
structure PageSt where
  ep : EpInfo
  rbf : Nat → BufPtr
  mapped : Nat → Bool

/-- Nothing registered, nothing mapped. -/
def pageInit : PageSt := { ep := epInit, rbf := fun _ => .null, mapped := fun _ => false }

/-- `rbf` is a new mapping. -/
def PageSt.maps (s : PageSt) (fd : Nat) (b : Span) : PageSt :=
  { s with rbf := Function.update s.rbf fd (.pages b), mapped := mapPages s.mapped b.start b.len }

/-- The first lines of `handle_read` and `handle_pipe`: `mmap` if `rbf` is null, with its
answer `b`, which is none of the mapped pages. -/
def mapRbf (fd : Nat) (b : Option Span) (s : PageSt) : Option PageSt :=
  match s.rbf fd with
  | .null =>
    match b with
    | none => some { s with rbf := Function.update s.rbf fd .failed }
    | some b => if Unmapped s.mapped b then some (s.maps fd b) else none
  | _ => some s

/-- `rbf` is null, and its `n` pages are unmapped. -/
def PageSt.unmaps (s : PageSt) (fd : Nat) (b : Span) (n : Nat) : PageSt :=
  { s with rbf := Function.update s.rbf fd .null, mapped := unmapPages s.mapped b.start n }

/-- `free_buff`: `munmap` with `max_msg_len`, which does nothing for `MAP_FAILED`. -/
def freeBuff (z : Sizes) (fd : Nat) (s : PageSt) : PageSt :=
  match s.rbf fd with
  | .null => s
  | .failed => { s with rbf := Function.update s.rbf fd .null }
  | .pages b => s.unmaps fd b (z.pages z.maxMsgLen)

/-! ## Steps -/

/-- The steps: a connection is registered, with the success of `epoll_ctl`; `handle_cli` and
`handle_pipe`, with the page that `mmap` would give; the end of a read that filled the
buffer or not; `do_fd_close`; and the loop of `start_work`. -/
inductive PageLbl where
  | add (ctl : Bool) (fd : Nat) (idx : Int) (type : FdType) (addr : FdAddr)
  | read (fd : Nat) (a : Option Nat)
  | pipe (fd : Nat) (a : Option Nat)
  | relist (fd : Nat) (full : Bool)
  | close (fd : Nat)
  | restart (idx : Int)

instance (ep : EpInfo) (n : Nat) : Decidable (InUse ep n) := inferInstanceAs (Decidable (_ ∧ _))

/-- One step. A new connection has a number that was not in use; the type of an entry
decides who reads it. -/
def pageStep (z : Sizes) : PageLbl → PageSt → Option PageSt
  | .add ctl fd idx type addr, s =>
    if 0 < fd ∧ type ≠ .null ∧ ¬ InUse s.ep fd then
      some
        { s with ep := (addFdinfoToEpinfo ctl fd idx type addr s.ep).2,
                 rbf := if ctl then Function.update s.rbf fd .null else s.rbf }
    else none
  | .read fd a, s =>
    if (s.ep.fds fd).type = .cli then mapRbf fd (a.map z.bufSpan) s else none
  | .pipe fd a, s =>
    if (s.ep.fds fd).type = .pipe then mapRbf fd (a.map z.msgSpan) s else none
  | .relist fd full, s =>
    (if full then doAddToReadlist fd s.ep else doDelFromReadlist fd s.ep).map fun ep =>
      { s with ep := ep }
  | .close fd, s =>
    if (s.ep.fds fd).type = .null then some s
    else (closeSlot fd s.ep).map fun ep => { freeBuff z fd s with ep := ep }
  | .restart idx, s => some { s with ep := (closeDownedFds idx s.ep).1 }

/-! ## What is to hold -/

/-- The buffers of the connections that are open. -/
def PageSt.held (s : PageSt) (fd : Nat) : Option Span :=
  if InUse s.ep fd then (s.rbf fd).span else none

/-- What is to hold: the mapped pages are those of the buffers of open connections. -/
def PagesExact (s : PageSt) : Prop := Exact s.mapped s.held

/-- A read maps no buffer for an entry that a restart has closed. -/
def ReadsOpen (fd : Nat) (a : Option Nat) (s : PageSt) : Prop :=
  InUse s.ep fd ∨ s.rbf fd ≠ .null ∨ a = none

/-- The condition: a buffer that `do_fd_close` frees has as many pages as `max_msg_len`, or
fewer with none mapped in the place of the missing ones; the restart of a worker closes no
connection that has a buffer; and a read is one of an open connection, or maps none. -/
def Fits (z : Sizes) : PageLbl → PageSt → Prop
  | .close fd, s =>
    ∀ b, (s.ep.fds fd).type ≠ .null → s.rbf fd = .pages b →
      b.len ≤ z.pages z.maxMsgLen ∧ FreeBehind s.mapped b (z.pages z.maxMsgLen)
  | .restart idx, s =>
    ∀ n : Nat, (n : Int) ≤ s.ep.maxfd → (s.ep.fds n).Downed idx → (s.rbf n).span = none
  | .read fd a, s => ReadsOpen fd a s
  | .pipe fd a, s => ReadsOpen fd a s
  | _, _ => True

/-- The invariant: no page is in two buffers, and only open connections have any. -/
structure PagesInv (s : PageSt) : Prop where
  exact : PagesExact s
  apart : Apart s.held
  closed : ∀ fd, ¬ InUse s.ep fd → (s.rbf fd).span = none

/-- No page is mapped. -/
theorem pageInit_inv : PagesInv pageInit := by
  have hnone : ∀ fd, pageInit.held fd = none := fun fd => ite_self none
  refine ⟨fun q => ⟨fun hno => ?_, ?_⟩, ?_, fun _ _ => rfl⟩
  · cases hno
  · rintro ⟨fd, b, hb, _⟩
    rw [hnone] at hb
    cases hb
  · intro fd fd' b b' q hb
    rw [hnone] at hb
    cases hb

/-- For an invariant state the two are one: the buffers, and those of open connections. -/
theorem PagesInv.held_eq {s : PageSt} (h : PagesInv s) (fd : Nat) :
    s.held fd = (s.rbf fd).span := by
  unfold PageSt.held
  by_cases huse : InUse s.ep fd
  · exact if_pos huse
  · rw [if_neg huse, h.closed fd huse]

/-- A step that changes neither buffers nor who is open. -/
theorem PagesInv.same {s t : PageSt} (h : PagesInv s) (hmapped : t.mapped = s.mapped)
    (hrbf : ∀ fd, (t.rbf fd).span = (s.rbf fd).span)
    (huse : ∀ fd, (s.rbf fd).span = none ∨ (InUse t.ep fd ↔ InUse s.ep fd)) : PagesInv t := by
  have hheld : t.held = s.held := by
    funext fd
    unfold PageSt.held
    rw [hrbf]
    rcases huse fd with hnone | hiff
    · rw [hnone, ite_self, ite_self]
    · simp only [hiff]
  refine ⟨?_, ?_, fun fd hno => ?_⟩
  · unfold PagesExact
    rw [hheld, hmapped]
    exact h.exact
  · rw [hheld]
    exact h.apart
  · rw [hrbf]
    rcases huse fd with hnone | hiff
    · exact hnone
    · exact h.closed fd (mt hiff.mpr hno)

/-- A pointer without a span in the place of another one. -/
theorem span_update {rbf : Nat → BufPtr} {fd : Nat} {p : BufPtr} (h : (rbf fd).span = none)
    (hp : p.span = none) (n : Nat) : (Function.update rbf fd p n).span = (rbf n).span := by
  by_cases hn : n = fd
  · rw [hn, Function.update_self, h, hp]
  · rw [Function.update_of_ne hn]

/-! ## One step -/

/-- A buffer mapped for an open connection. -/
theorem held_maps {s : PageSt} {fd : Nat} (huse : InUse s.ep fd) (b : Span) :
    (s.maps fd b).held = Function.update s.held fd (some b) := by
  funext n
  unfold PageSt.held PageSt.maps
  by_cases hn : n = fd
  · rw [hn, Function.update_self]
    simp only [Function.update_self, if_pos huse]
    rfl
  · simp only [Function.update_of_ne hn]

/-- A buffer mapped for an entry that is not open. -/
theorem held_maps_closed {s : PageSt} {fd : Nat} (huse : ¬ InUse s.ep fd) (b : Span) :
    (s.maps fd b).held = s.held := by
  funext n
  unfold PageSt.held PageSt.maps
  by_cases hn : n = fd
  · rw [hn, if_neg huse, if_neg huse]
  · simp only [Function.update_of_ne hn]

/-- Mapping a buffer for an open connection that has none. -/
theorem PagesInv.maps {s : PageSt} (h : PagesInv s) {fd : Nat} (huse : InUse s.ep fd)
    (hspan : (s.rbf fd).span = none) {b : Span} (hfree : Unmapped s.mapped b) :
    PagesInv (s.maps fd b) := by
  refine ⟨?_, ?_, fun n hno => ?_⟩
  · unfold PagesExact
    rw [held_maps huse]
    exact exact_map h.exact ((h.held_eq fd).trans hspan) b
  · rw [held_maps huse]
    exact apart_map h.exact h.apart hfree fd
  · have hn : n ≠ fd := fun heq => hno (heq ▸ huse)
    unfold PageSt.maps
    simp only [Function.update_of_ne hn]
    exact h.closed n hno

/-- A pointer that is not null stays as it is. -/
theorem mapRbf_mapped {fd : Nat} {s : PageSt} (hptr : s.rbf fd ≠ .null) (b : Option Span) :
    mapRbf fd b s = some s := by
  unfold mapRbf
  cases hrbf : s.rbf fd with
  | null => exact absurd hrbf hptr
  | failed => rfl
  | pages b => rfl

/-- **Mapping**, on either side of the condition. -/
theorem mapRbf_cases {fd : Nat} {b : Option Span} {s t : PageSt} (h : PagesInv s)
    (hstep : mapRbf fd b s = some t) :
    (InUse s.ep fd ∨ s.rbf fd ≠ .null ∨ b = none) ∧ PagesInv t ∨
      ¬ (InUse s.ep fd ∨ s.rbf fd ≠ .null ∨ b = none) ∧ ¬ PagesExact t := by
  by_cases hptr : s.rbf fd ≠ .null
  · rw [mapRbf_mapped hptr] at hstep
    cases hstep
    exact Or.inl ⟨Or.inr (Or.inl hptr), h⟩
  have hnull : s.rbf fd = .null := not_not.mp hptr
  have hspan : (s.rbf fd).span = none := congrArg BufPtr.span hnull
  simp only [mapRbf, hnull] at hstep
  cases b with
  | none =>
    cases hstep
    exact Or.inl ⟨Or.inr (Or.inr rfl), h.same rfl (span_update hspan rfl) fun _ => Or.inr Iff.rfl⟩
  | some b =>
    obtain ⟨hfree, hres⟩ := Option.ite_none_right_eq_some.mp hstep
    cases hres
    by_cases huse : InUse s.ep fd
    · exact Or.inl ⟨Or.inl huse, h.maps huse hspan hfree⟩
    · refine Or.inr ⟨?_, ?_⟩
      · rintro (hin | hne | hnone)
        · exact huse hin
        · exact hptr hne
        · cases hnone
      · unfold PagesExact
        rw [held_maps_closed huse]
        exact not_exact_of_leak h.exact hfree

/-- A closed entry is not in use. -/
theorem Closed.not_inUse {fd : Nat} {ep ep' : EpInfo} (h : Closed fd ep ep') : ¬ InUse ep' fd := by
  obtain ⟨flag, hself⟩ := h.self
  rintro ⟨_, htype, _⟩
  rw [hself] at htype
  exact htype rfl

/-- The others are as before. -/
theorem Closed.inUse_other {fd n : Nat} {ep ep' : EpInfo} (h : Closed fd ep ep') (hn : n ≠ fd) :
    InUse ep' n ↔ InUse ep n := by
  unfold InUse Registered
  rw [h.other n hn]

/-- A closed entry whose buffer is unmapped: all others hold what they held. -/
theorem held_unmaps {fd : Nat} {s : PageSt} {ep : EpInfo} (hclosed : Closed fd s.ep ep) (b : Span)
    (n : Nat) : PageSt.held { s.unmaps fd b n with ep := ep } = Function.update s.held fd none := by
  funext k
  unfold PageSt.held PageSt.unmaps
  by_cases hk : k = fd
  · rw [hk, Function.update_self]
    exact if_neg hclosed.not_inUse
  · simp only [Function.update_of_ne hk, hclosed.inUse_other hk]

/-- Unmapping the buffer of an entry that is closed, where the length is right. -/
theorem PagesInv.unmaps {fd : Nat} {s : PageSt} {ep : EpInfo} (h : PagesInv s)
    (hclosed : Closed fd s.ep ep) {b : Span} (hb : s.held fd = some b) {n : Nat}
    (hfit : b.len ≤ n ∧ FreeBehind s.mapped b n) :
    PagesInv { s.unmaps fd b n with ep := ep } := by
  refine ⟨?_, ?_, fun k hno => ?_⟩
  · unfold PagesExact
    rw [held_unmaps hclosed]
    exact (exact_unmap_iff h.exact h.apart hb n).mpr hfit
  · rw [held_unmaps hclosed]
    exact h.apart.mono fun k b' h' => (held_of_update_none h').2
  · unfold PageSt.unmaps
    by_cases hk : k = fd
    · rw [hk]
      simp only [Function.update_self]
      rfl
    · simp only [Function.update_of_ne hk]
      exact h.closed k fun huse => hno ((hclosed.inUse_other hk).mpr huse)

/-- Closing an entry that has no buffer. -/
theorem PagesInv.closeEmpty {fd : Nat} {s : PageSt} {ep : EpInfo} (h : PagesInv s)
    (hclosed : Closed fd s.ep ep) (hspan : (s.rbf fd).span = none) {rbf : Nat → BufPtr}
    (hrbf : ∀ k, (rbf k).span = (s.rbf k).span) : PagesInv { s with ep := ep, rbf := rbf } := by
  refine h.same rfl hrbf fun k => ?_
  by_cases hk : k = fd
  · exact Or.inl (hk ▸ hspan)
  · exact Or.inr (hclosed.inUse_other hk)

/-- The condition on the buffer that `free_buff` finds. -/
def FreesOwn (z : Sizes) (fd : Nat) (s : PageSt) : Prop :=
  ∀ b, s.rbf fd = .pages b →
    b.len ≤ z.pages z.maxMsgLen ∧ FreeBehind s.mapped b (z.pages z.maxMsgLen)

/-- **Freeing**, on either side of the condition. -/
theorem freeBuff_cases (z : Sizes) {fd : Nat} {s : PageSt} {ep : EpInfo} (h : PagesInv s)
    (hclosed : Closed fd s.ep ep) :
    FreesOwn z fd s ∧ PagesInv { freeBuff z fd s with ep := ep } ∨
      ¬ FreesOwn z fd s ∧ ¬ PagesExact { freeBuff z fd s with ep := ep } := by
  unfold freeBuff FreesOwn
  cases hptr : s.rbf fd with
  | null =>
    have hspan : (s.rbf fd).span = none := congrArg BufPtr.span hptr
    exact Or.inl ⟨fun b hb => (nomatch hb), h.closeEmpty hclosed hspan fun _ => rfl⟩
  | failed =>
    have hspan : (s.rbf fd).span = none := congrArg BufPtr.span hptr
    exact Or.inl ⟨fun b hb => (nomatch hb), h.closeEmpty hclosed hspan (span_update hspan rfl)⟩
  | pages b =>
    have hb : s.held fd = some b := (h.held_eq fd).trans (congrArg BufPtr.span hptr)
    by_cases hfit : b.len ≤ z.pages z.maxMsgLen ∧ FreeBehind s.mapped b (z.pages z.maxMsgLen)
    · refine Or.inl ⟨fun b' heq => ?_, h.unmaps hclosed hb hfit⟩
      cases heq
      exact hfit
    · refine Or.inr ⟨fun hall => hfit (hall b rfl), fun hexact => hfit ?_⟩
      unfold PagesExact at hexact
      rw [held_unmaps hclosed] at hexact
      exact (exact_unmap_iff h.exact h.apart hb _).mp hexact

/-- The entries behind the loop of `start_work`. -/
theorem inUse_closeDownedFds (idx : Int) (ep : EpInfo) (n : Nat) :
    InUse (closeDownedFds idx ep).1 n ↔
      InUse ep n ∧ ¬ ((n : Int) ≤ ep.maxfd ∧ (ep.fds n).Downed idx) := by
  have hfds := (closeDowned_frame idx ep (ep.maxfd + 1).toNat).1 n
  have hlt : n < (ep.maxfd + 1).toNat ↔ (n : Int) ≤ ep.maxfd := by omega
  simp only [hlt] at hfds
  unfold InUse Registered closeDownedFds
  rw [hfds]
  by_cases hdown : (n : Int) ≤ ep.maxfd ∧ (ep.fds n).Downed idx
  · rw [if_pos hdown]
    constructor
    · rintro ⟨_, _, hfd⟩
      simp only at hfd
      omega
    · rintro ⟨_, hno⟩
      exact absurd hdown hno
  · rw [if_neg hdown]
    exact ⟨fun h => ⟨h, hdown⟩, fun h => h.1⟩

/-- **A restart**, on either side of the condition. -/
theorem restart_cases (z : Sizes) (idx : Int) {s : PageSt} (h : PagesInv s) :
    Fits z (.restart idx) s ∧ PagesInv { s with ep := (closeDownedFds idx s.ep).1 } ∨
      ¬ Fits z (.restart idx) s ∧ ¬ PagesExact { s with ep := (closeDownedFds idx s.ep).1 } := by
  have huse := inUse_closeDownedFds idx s.ep
  by_cases hfit : Fits z (.restart idx) s
  · refine Or.inl ⟨hfit, h.same rfl (fun _ => rfl) fun n => ?_⟩
    by_cases hdown : (n : Int) ≤ s.ep.maxfd ∧ (s.ep.fds n).Downed idx
    · exact Or.inl (hfit n hdown.1 hdown.2)
    · exact Or.inr ((huse n).trans (and_iff_left hdown))
  · refine Or.inr ⟨hfit, ?_⟩
    -- a connection that is closed with its buffer
    obtain ⟨n, hle, hdown, hspan⟩ : ∃ n : Nat, (n : Int) ≤ s.ep.maxfd ∧
        (s.ep.fds n).Downed idx ∧ (s.rbf n).span ≠ none := by
      by_contra hno
      refine hfit fun n hle hdown => ?_
      by_contra hspan
      exact hno ⟨n, hle, hdown, hspan⟩
    obtain ⟨b, hb⟩ := Option.ne_none_iff_exists'.mp hspan
    rw [← h.held_eq] at hb
    refine not_exact_of_lost h.apart (fun k b' h' => ?_) hb ?_ b.has_start ?_
    · unfold PageSt.held at h' ⊢
      by_cases hk : InUse (closeDownedFds idx s.ep).1 k
      · rw [if_pos hk] at h'
        rw [if_pos ((huse k).mp hk).1]
        exact h'
      · rw [if_neg hk] at h'
        cases h'
    · exact if_neg fun hk => ((huse n).mp hk).2 ⟨hle, hdown⟩
    · exact (h.exact _).mpr ⟨n, b, hb, b.has_start⟩

/-- **One step**, on either side of the condition. -/
theorem pageStep_cases (z : Sizes) (l : PageLbl) (s t : PageSt) (h : PagesInv s)
    (hstep : pageStep z l s = some t) :
    Fits z l s ∧ PagesInv t ∨ ¬ Fits z l s ∧ ¬ PagesExact t := by
  cases l with
  | add ctl fd idx type addr =>
    obtain ⟨⟨_, _, hfree⟩, hres⟩ := Option.ite_none_right_eq_some.mp hstep
    cases hres
    refine Or.inl ⟨trivial, ?_⟩
    cases ctl with
    | false => exact h.same rfl (fun _ => rfl) fun _ => Or.inr Iff.rfl
    | true =>
      -- an entry that was free had no buffer
      have hspan := h.closed fd hfree
      have hfds := (addFdinfo_frame fd idx type addr s.ep).1
      refine h.same rfl (span_update hspan rfl) fun n => ?_
      by_cases hn : n = fd
      · exact Or.inl (hn ▸ hspan)
      · right
        show InUse (addFdinfo fd idx type addr s.ep) n ↔ InUse s.ep n
        unfold InUse Registered
        rw [hfds, Function.update_of_ne hn]
  | read fd a =>
    obtain ⟨_, hmap⟩ := Option.ite_none_right_eq_some.mp hstep
    have hcases := mapRbf_cases h hmap
    rw [Option.map_eq_none_iff] at hcases
    exact hcases
  | pipe fd a =>
    obtain ⟨_, hmap⟩ := Option.ite_none_right_eq_some.mp hstep
    have hcases := mapRbf_cases h hmap
    rw [Option.map_eq_none_iff] at hcases
    exact hcases
  | relist fd full =>
    obtain ⟨ep, hep, rfl⟩ := Option.map_eq_some_iff.mp hstep
    have hre : Reflagged fd s.ep ep := by
      cases full with
      | false => exact doDelFromReadlist_reflags hep
      | true => exact doAddToReadlist_reflags hep
    refine Or.inl ⟨trivial, h.same rfl (fun _ => rfl) fun n => Or.inr ?_⟩
    exact and_congr_right fun _ => hre.registered n
  | close fd =>
    simp only [pageStep] at hstep
    by_cases hnull : (s.ep.fds fd).type = .null
    · rw [if_pos hnull] at hstep
      cases hstep
      exact Or.inl ⟨fun _ hno => absurd hnull hno, h⟩
    · rw [if_neg hnull] at hstep
      obtain ⟨ep, hep, rfl⟩ := Option.map_eq_some_iff.mp hstep
      -- only a `do_fd_close` that does something frees a buffer
      have hiff : Fits z (.close fd) s ↔ FreesOwn z fd s :=
        ⟨fun hfit b => hfit b hnull, fun hfit b _ => hfit b⟩
      rw [hiff]
      exact freeBuff_cases z h (closeSlot_closed hep)
  | restart idx =>
    cases hstep
    exact restart_cases z idx h

/-! ## Runs -/

/-- **The receive buffers are accounted for** exactly under the condition: for all sizes, in
every state of a run of opens, reads, pipe reads, closes and restarts, the pages mapped
for receive buffers are those of the connections that are open, if and only if each step
of the run meets `Fits`. -/
theorem pages_exact_iff (z : Sizes) (ls : List PageLbl) :
    Throughout (pageStep z) PagesExact ls pageInit ↔ Along (pageStep z) (Fits z) ls pageInit :=
  throughout_iff_along PagesInv (fun _ h => h.exact) (pageStep_cases z) pageInit_inv

/-- The sizes of the sample configuration, with pages of 4096 bytes. -/
def sampleSizes : Sizes :=
  { pageSize := 4096, maxBufLen := 10240000, maxMsgLen := 1024000, pagePos := by decide,
    bufPos := by decide, msgPos := by decide }

/-- A connection is opened, read and closed. -/
def openReadClose : List PageLbl :=
  [.add true 5 0 .cli ⟨0, 0⟩, .read 5 (some 100), .close 5]

/-- With the sizes of the sample configuration a connection that was read leaves 2250 of its
2500 pages behind. -/
theorem openReadClose_not_exact :
    ¬ Throughout (pageStep sampleSizes) PagesExact openReadClose pageInit := by
  rw [throughout_iff_along PagesInv (fun _ h => h.exact) (pageStep_cases sampleSizes) pageInit_inv]
  intro halong
  let s : PageSt :=
    { ep := addFdinfo 5 0 .cli ⟨0, 0⟩ epInit, rbf := Function.update (fun _ => .null) 5 .null,
      mapped := fun _ => false }
  have hadd : pageStep sampleSizes (.add true 5 0 .cli ⟨0, 0⟩) pageInit = some s := by
    simp only [pageStep]
    rw [if_pos (by decide)]
    rfl
  have htype : (s.ep.fds 5).type = .cli := by decide
  have hread : pageStep sampleSizes (.read 5 (some 100)) s =
      some (s.maps 5 (sampleSizes.bufSpan 100)) := by
    have hnull : s.rbf 5 = .null := rfl
    have hfree : Unmapped s.mapped (sampleSizes.bufSpan 100) := fun _ _ => rfl
    simp only [pageStep, if_pos htype, mapRbf, hnull, Option.map_some, if_pos hfree]
  have hclose : pageStep sampleSizes (.close 5) (s.maps 5 (sampleSizes.bufSpan 100)) =
      some { freeBuff sampleSizes 5 (s.maps 5 (sampleSizes.bufSpan 100)) with
        ep := replaceMaxfd 5 (freeSlot 5 s.ep) } := by
    simp only [pageStep]
    rw [if_neg (by decide)]
    exact congrArg _ (closeSlot_unlisted rfl)
  have hfit := (((halong s hadd).2 _ hread).2 _ hclose).1
  exact absurd (hfit (sampleSizes.bufSpan 100) (by decide) rfl).1 (by decide)

end SServer.Table
