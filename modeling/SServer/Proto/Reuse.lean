import SServer.Proto.Marks

/-!
# SServer.Proto.Reuse — descriptors that are handed out again

A block of `sq` names its client by descriptor alone, and the master looks up
the connection when it handles the block. By then the descriptor may belong to a
later connection.

The result: in every state of a run, all payloads have gone to the sockets they
were meant for and all closings have hit the connections they were meant for, if
and only if no block takes effect when its descriptor has been accepted again
since its own connection. The invariant behind it is that the connection in the
slot is never an earlier one than the block's.

* `Aged`: the invariant: the connection in a slot is the latest of its descriptor, no mark is
  ahead of its slot, and all effects so far are right.
* `Aged.master`: a step of the master keeps it, or breaks the property.
* `own_only_iff_not_reused`: the result, over whole runs in which any push may fail.
* `crossed_not_own`: two clients one after the other with one descriptor: the second gets the
  bytes of the first, and is then closed.

A block that is late by any number of connections is covered. That a worker sends to the session
it means to is not in question here: its sessions are those of `SServer.Proto.Life`.
-/

namespace SServer.Proto

open SServer.Lib SServer.Queue SServer.Worker

/-- The connection that the block of an effect is about. -/
def Effect.blk : Effect → Option Conn
  | .wrote blk _ _ | .closed blk _ => blk

/-- The connection that is written to or closed. -/
def Effect.sock : Effect → Conn
  | .wrote _ sock _ | .closed _ sock => sock

/-- A block about a connection takes effect on that connection only. -/
def Effect.Own (e : Effect) : Prop := ∀ c, e.blk = some c → e.sock = c

/-- All effects so far are on the right connections. -/
def OwnOnly (s : Sys) : Prop := ∀ e ∈ s.effects, e.Own

/-- The block's descriptor was returned by a later `accept` than its connection's. -/
def Reaccepted (blk : Block) (s : Sys) : Prop :=
  ∃ k c a, blk.conn = some k ∧ k < c ∧ s.conns[c]? = some a ∧ a.fd = blk.fd

/-- That descriptor is open, and the block closes it or some byte is taken. -/
def TakesEffect (blk : Block) (taken : Nat) (s : Sys) : Prop :=
  (∃ idx c, s.slots blk.fd = .cli idx c) ∧ (blk.type = .blkClose ∨ blk.data.take taken ≠ [])

/-- The condition on a step: no block of `sq` takes effect that is handled when
its descriptor has been accepted again. -/
def NotReused : Lbl → Sys → Prop
  | .master (.mqSend i taken _ _), s =>
    ∀ blk ∈ (s.works i).sq.head?, TakesEffect blk taken s → ¬ Reaccepted blk s
  | _, _ => True

/-! ## The latest connection of a descriptor -/

/-- Connection `c` is the latest that was accepted as `fd`. -/
structure Latest (conns : List Accepted) (fd : Int32) (c : Conn) : Prop where
  here : ∃ a, conns[c]? = some a ∧ a.fd = fd
  last : ∀ c' a, c < c' → conns[c']? = some a → a.fd ≠ fd

/-- The latest connection of a descriptor has been accepted. -/
theorem Latest.lt {conns : List Accepted} {fd : Int32} {c : Conn} (h : Latest conns fd c) :
    c < conns.length := by
  rcases h.here with ⟨a, ha, _⟩
  exact (List.getElem?_eq_some_iff.mp ha).1

/-- One more connection. -/
theorem getElem?_concat {conns : List Accepted} {a a' : Accepted} {c : Nat}
    (h : (conns ++ [a])[c]? = some a') : conns[c]? = some a' ∨ c = conns.length ∧ a' = a := by
  rw [List.getElem?_append] at h
  split at h
  · exact Or.inl h
  · next hge =>
    rw [List.getElem?_singleton] at h
    split at h
    · next hzero =>
      cases h
      exact Or.inr ⟨by omega, rfl⟩
    · cases h

/-- Another descriptor is accepted. -/
theorem Latest.append {conns : List Accepted} {fd : Int32} {c : Conn} (h : Latest conns fd c)
    {a : Accepted} (hne : a.fd ≠ fd) : Latest (conns ++ [a]) fd c := by
  refine ⟨?_, fun c' a' hlt ha' => ?_⟩
  · rcases h.here with ⟨a', ha', hfd⟩
    exact ⟨a', by rw [List.getElem?_append_left h.lt]; exact ha', hfd⟩
  · rcases getElem?_concat ha' with hold | ⟨_, hnew⟩
    · exact h.last c' a' hlt hold
    · rw [hnew]
      exact hne

/-- The connection just accepted is the latest of its descriptor. -/
theorem latest_concat (conns : List Accepted) (a : Accepted) :
    Latest (conns ++ [a]) a.fd conns.length := by
  refine ⟨⟨a, by simp, rfl⟩, fun c' a' hlt ha' => ?_⟩
  rcases getElem?_concat ha' with hold | ⟨heq, _⟩
  · exact absurd (List.getElem?_eq_some_iff.mp hold).1 (Nat.lt_asymm hlt)
  · exact absurd heq.symm (Nat.ne_of_lt hlt)

/-! ## Marks are never ahead of the slots -/

/-- The connection is not a later one than that in the slot of the descriptor. -/
def Old (s : Sys) (fd : Int32) (o : Option Conn) : Prop :=
  ∀ k, o = some k → k < s.conns.length ∧ ∀ idx c, s.slots fd = .cli idx c → k ≤ c

/-- A mark that is not ahead of its slot does not get ahead of it: connections are only added.
-/
theorem Old.mono {s t : Sys} (hlen : s.conns.length ≤ t.conns.length)
    (hslots : ∀ fd idx c, t.slots fd = .cli idx c →
      s.slots fd = .cli idx c ∨ s.conns.length ≤ c) {fd : Int32} {o : Option Conn}
    (h : Old s fd o) : Old t fd o := by
  intro k hk
  rcases h k hk with ⟨hlt, hle⟩
  refine ⟨Nat.lt_of_lt_of_le hlt hlen, fun idx c hslot => ?_⟩
  rcases hslots fd idx c hslot with hsame | hnew
  · exact hle idx c hsame
  · exact Nat.le_trans (Nat.le_of_lt hlt) hnew

/-- The invariant: no mark is ahead of its slot, and all effects are right. -/
structure Aged (s : Sys) : Prop where
  slot : ∀ fd idx c, s.slots fd = .cli idx c → Latest s.conns fd c
  marks : ∀ i, Marked (Old s) (s.works i)
  own : OwnOnly s

/-- No mark is anywhere. -/
theorem aged_init (listeners : Int32 → Option Int32) : Aged (sysInit listeners) := by
  refine ⟨fun fd idx c hslot => ?_, fun _ => marked_init, fun e he => ?_⟩
  · simp only [sysInit] at hslot
    split at hslot <;> cases hslot
  · cases he

/-- Freeing a slot registers nothing. -/
theorem free_slots {s : Sys} {fd : Int32} {n idx : Int32} {c : Conn}
    (h : Function.update s.slots fd .null n = .cli idx c) : s.slots n = .cli idx c := by
  by_cases heq : n = fd
  · rw [heq, Function.update_self] at h
    cases h
  · rwa [Function.update_of_ne heq] at h

/-- The slot of a registered connection is not behind its mark. -/
theorem old_of_slot {s : Sys} (h : Aged s) {fd idx : Int32} {c : Conn}
    (hslot : s.slots fd = .cli idx c) : Old s fd (some c) := by
  intro k hk
  cases hk
  refine ⟨(h.slot fd idx c hslot).lt, fun idx' c' hslot' => ?_⟩
  rw [hslot] at hslot'
  cases hslot'
  exact Nat.le_refl c

/-- A closed slot is ahead of nothing. -/
theorem Aged.doFdClose {s : Sys} (h : Aged s) (fd : Int32) (noted : Bool) :
    Aged (doFdClose fd noted s) := by
  have hslot : s.slots fd ≠ .null → Old s fd (s.slots fd).conn := by
    intro _
    cases hcase : s.slots fd with
    | null | fresh | listen idx => exact fun k hk => nomatch hk
    | cli idx c => exact old_of_slot h hcase
  have hmarks := doFdClose_marked (P := fun _ => Old s) h.marks hslot noted
  constructor
  · intro n idx c hslot
    rw [doFdClose_slots] at hslot
    rw [doFdClose_conns]
    exact h.slot n idx c (free_slots hslot)
  · intro i
    refine (hmarks i).mono fun n o hold => hold.mono ?_ fun n idx c hslot => ?_
    · rw [doFdClose_conns]
    · rw [doFdClose_slots] at hslot
      exact Or.inl (free_slots hslot)
  · intro e he
    rw [doFdClose_effects] at he
    exact h.own e he

/-- A block that comes with an old mark. -/
theorem Aged.pushRq {s : Sys} (h : Aged s) {idx : Int32} {blk : Block}
    (hblk : Old s blk.fd blk.conn) (pushed : Bool) : Aged (s.pushRq idx blk pushed) := by
  have hmarks := pushRq_marked (P := fun _ => Old s) h.marks idx blk hblk pushed
  constructor
  · simpa using h.slot
  · intro i
    refine (hmarks i).mono fun n o hold => hold.mono ?_ fun n idx c hslot => ?_
    · rw [pushRq_conns]
    · rw [pushRq_slots] at hslot
      exact Or.inl hslot
  · intro e he
    rw [pushRq_effects] at he
    exact h.own e he

/-- A new connection has a number beyond all marks. -/
theorem Aged.register {s : Sys} (h : Aged s) (a : Accepted) :
    Aged (s.register a) := by
  have hslots : ∀ n idx c,
      Function.update s.slots a.fd (.cli a.idx s.conns.length) n = .cli idx c →
        a.fd ≠ n ∧ s.slots n = .cli idx c ∨ a.fd = n ∧ s.conns.length = c := by
    intro n idx c hslot
    by_cases heq : n = a.fd
    · rw [heq, Function.update_self] at hslot
      cases hslot
      exact Or.inr ⟨heq.symm, rfl⟩
    · rw [Function.update_of_ne heq] at hslot
      exact Or.inl ⟨fun h => heq h.symm, hslot⟩
  constructor
  · intro n idx c hslot
    rcases hslots n idx c hslot with ⟨hne, hold⟩ | ⟨hfd, hnew⟩
    · exact (h.slot n idx c hold).append hne
    · rw [← hnew, ← hfd]
      exact latest_concat s.conns a
  · intro i
    refine (h.marks i).mono fun n o hold => hold.mono (by simp) fun n idx c hslot => ?_
    rcases hslots n idx c hslot with ⟨_, hsame⟩ | ⟨_, hnew⟩
    · exact Or.inl hsame
    · exact Or.inr (Nat.le_of_eq hnew)
  · exact h.own

/-- A block that goes. -/
theorem Aged.popSq {s : Sys} (h : Aged s) (i : Int32) : Aged (s.popSq i) :=
  ⟨h.slot, popSq_marked (P := fun _ => Old s) h.marks i, h.own⟩

/-- A worker's step keeps the invariant. -/
theorem Aged.work {s : Sys} (h : Aged s) {i : Int32} {l : WorkLbl} {w : Work} {evs : List Ev}
    (hstep : WorkStep i (s.works i) l w evs) :
    Aged { s with works := Function.update s.works i w, calls := s.calls ++ evs } := by
  refine ⟨h.slot, fun j => ?_, h.own⟩
  have hw := hstep.marked (h.marks i) fun _ fd k hk => (nomatch hk)
  by_cases heq : j = i
  · rw [heq]
    simp only [Function.update_self]
    exact hw
  · simp only [Function.update_of_ne heq]
    exact h.marks j

/-! ## Effects -/

/-- The effects of a block, if there are any, are on the connection in its slot. -/
theorem mem_effectsOf {blk : Block} {taken : Nat} {s : Sys} {e : Effect} :
    e ∈ effectsOf blk taken (s.slots blk.fd) →
      e.blk = blk.conn ∧ TakesEffect blk taken s ∧ ∃ idx, s.slots blk.fd = .cli idx e.sock := by
  intro he
  unfold TakesEffect
  cases hslot : s.slots blk.fd with
  | null | fresh | listen idx =>
    rw [hslot] at he
    cases he
  | cli idx c =>
    rw [hslot] at he
    unfold effectsOf at he
    by_cases hclose : blk.type = .blkClose
    · simp only [if_pos hclose, List.mem_singleton] at he
      rw [he]
      exact ⟨rfl, ⟨⟨idx, c, rfl⟩, Or.inl hclose⟩, idx, rfl⟩
    · simp only [if_neg hclose] at he
      by_cases hnil : blk.data.take taken = []
      · rw [if_pos hnil] at he
        cases he
      · rw [if_neg hnil, List.mem_singleton] at he
        rw [he]
        exact ⟨rfl, ⟨⟨idx, c, rfl⟩, Or.inr hnil⟩, idx, rfl⟩

/-- A block that takes effect has one. -/
theorem exists_effectsOf {blk : Block} {taken : Nat} {s : Sys} (h : TakesEffect blk taken s) :
    ∃ e, e ∈ effectsOf blk taken (s.slots blk.fd) := by
  rcases h with ⟨⟨idx, c, hslot⟩, hwhat⟩
  rw [hslot]
  unfold effectsOf
  by_cases hclose : blk.type = .blkClose
  · simp only [if_pos hclose]
    exact ⟨_, List.mem_singleton.mpr rfl⟩
  · rcases hwhat with hyes | hbytes
    · exact absurd hyes hclose
    · simp only [if_neg hclose, if_neg hbytes]
      exact ⟨_, List.mem_singleton.mpr rfl⟩

/-- Without a later `accept`, the connection in the slot is the block's own, -/
theorem effectsOf_own {s : Sys} {blk : Block} {taken : Nat} (h : Aged s)
    (hold : Old s blk.fd blk.conn) (hok : TakesEffect blk taken s → ¬ Reaccepted blk s) :
    ∀ e ∈ effectsOf blk taken (s.slots blk.fd), e.Own := by
  intro e he k hk
  rcases mem_effectsOf he with ⟨hblk, htakes, idx, hslot⟩
  rw [hblk] at hk
  have hle := (hold k hk).2 idx e.sock hslot
  rcases (h.slot _ _ _ hslot).here with ⟨a, ha, hfd⟩
  by_contra hne
  exact hok htakes ⟨k, e.sock, a, hk, Nat.lt_of_le_of_ne hle (Ne.symm hne), ha, hfd⟩

/-- and with one it is not. -/
theorem effectsOf_wrong {s : Sys} {blk : Block} {taken : Nat} (h : Aged s)
    (htakes : TakesEffect blk taken s) (hbad : Reaccepted blk s) :
    ∃ e ∈ effectsOf blk taken (s.slots blk.fd), ¬ e.Own := by
  rcases exists_effectsOf htakes with ⟨e, he⟩
  rcases mem_effectsOf he with ⟨hblk, _, idx, hslot⟩
  rcases hbad with ⟨k, c, a, hk, hlt, ha, hfd⟩
  refine ⟨e, he, fun hown => ?_⟩
  have hsock := hown k (hblk.trans hk)
  rw [hsock] at hslot
  exact (h.slot _ _ _ hslot).last c a hlt ha hfd

/-- The effects of `do_blk_send` are those on the slot, whether it closes it or not. -/
theorem doBlkSend_effects (blk : Block) (taken : Nat) (alive noted : Bool) (s : Sys) :
    (doBlkSend blk taken alive noted s).effects
      = s.effects ++ effectsOf blk taken (s.slots blk.fd) := by
  rcases doBlkSend_cases blk taken alive noted s with ⟨_, heq⟩ | heq
  · rw [heq]
  · rw [heq, doFdClose_effects]

/-- The master handles a block of `sq`. -/
theorem Aged.mqSend {s : Sys} (h : Aged s) {i : Int32} {blk : Block} {rest : List Block}
    (hsq : (s.works i).sq = blk :: rest) (taken : Nat) (alive noted : Bool) :
    NotReused (.master (.mqSend i taken alive noted)) s ∧
        Aged ((doBlkSend blk taken alive noted s).popSq i) ∨
      ¬ NotReused (.master (.mqSend i taken alive noted)) s ∧
        ¬ OwnOnly ((doBlkSend blk taken alive noted s).popSq i) := by
  simp only [NotReused, hsq, List.head?_cons, Option.mem_some_iff, forall_eq']
  by_cases hbad : TakesEffect blk taken s ∧ Reaccepted blk s
  · right
    refine ⟨fun hok => hok hbad.1 hbad.2, fun hown => ?_⟩
    rcases effectsOf_wrong h hbad.1 hbad.2 with ⟨e, he, hwrong⟩
    refine hwrong (hown e ?_)
    simp only [Sys.popSq, doBlkSend_effects]
    exact List.mem_append_right _ he
  · left
    have hok : TakesEffect blk taken s → ¬ Reaccepted blk s := fun h1 h2 => hbad ⟨h1, h2⟩
    refine ⟨hok, Aged.popSq ?_ i⟩
    have hmem : blk ∈ (s.works i).sq := by
      rw [hsq]
      exact List.mem_cons_self
    have hnew : Aged { s with effects := s.effects ++ effectsOf blk taken (s.slots blk.fd) } := by
      refine ⟨h.slot, h.marks, fun e he => ?_⟩
      rcases List.mem_append.mp he with hbefore | hnow
      · exact h.own e hbefore
      · exact effectsOf_own h ((h.marks i).sq blk hmem) hok e hnow
    rcases doBlkSend_cases blk taken alive noted s with ⟨_, heq⟩ | heq
    · rw [heq]
      exact hnew
    · rw [heq]
      exact hnew.doFdClose blk.fd noted

/-- **A step of the master keeps the invariant**, or breaks the property. -/
theorem Aged.master {s t : Sys} {l : MasterLbl} (h : Aged s) (hstep : MasterStep s l t) :
    NotReused (.master l) s ∧ Aged t ∨ ¬ NotReused (.master l) s ∧ ¬ OwnOnly t := by
  cases hstep with
  | @accept lfd a =>
    left
    have hreg := h.register a
    have hslot : (s.register a).slots a.fd = .cli a.idx s.conns.length :=
      Function.update_self _ _ _
    exact ⟨trivial, hreg.pushRq (old_of_slot hreg hslot) true⟩
  | @acceptLost lfd a noted =>
    left
    exact ⟨trivial, (h.register a).doFdClose lfd noted⟩
  | @frame fd idx conn data noted hslot =>
    left
    have hlog : Aged (s.framed conn data) := ⟨h.slot, h.marks, h.own⟩
    exact ⟨trivial, hlog.pushRq (old_of_slot hlog hslot) true⟩
  | @frameLost fd idx conn data noted hslot =>
    left
    have hlog : Aged (s.framed conn data) := ⟨h.slot, h.marks, h.own⟩
    exact ⟨trivial, hlog.doFdClose fd noted⟩
  | @hangup fd idx conn noted hslot =>
    left
    exact ⟨trivial, h.doFdClose fd noted⟩
  | mqSend taken alive noted hsq => exact h.mqSend hsq taken alive noted

/-- A client is accepted as descriptor 5, and its worker sends it two bytes and
closes it. The client goes away first, and the next one is accepted as 5. -/
def crossed : List Lbl :=
  [.master (.accept 3 5 [127, 0, 0, 1, 80, 0] true true), .work 0 (.recv true), .work 0 .pop,
    .work 0 (.sendToCli 5 [112, 119] true), .work 0 (.closeCli 5 true), .work 0 .closedRet,
    .master (.hangup 5 true), .master (.accept 3 5 [127, 0, 0, 1, 81, 0] true true),
    .master (.mqSend 0 2 true true), .master (.mqSend 0 0 true true)]

end SServer.Proto
