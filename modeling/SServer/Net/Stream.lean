import SServer.Net.Send

/-!
# SServer.Net.Stream — the bytes of one connection, in order and once

The runs of `do_fd_send` and of the `EPOLLOUT` branch on one connection, and
the stream property: what the kernel took, followed by what waits in `sbf`, is
what was handed over. It holds in every state of a run exactly when no direct
send of the run is cut short by `EAGAIN`: the first time one is, `do_fd_send`
returns from its check of the fresh buffer and the rest of the message is gone.

* `streamStep_cases`: one call, on either side of the condition.
* `stream_iff_sends_whole`: the result, for all answers of `send` and of the allocator.
* `cutShort_not_streamOk`: one byte of three is taken: the other two are neither sent nor kept.

What waits when the connection is closed goes with it, so the property speaks of open
connections. The answers of `send` and of the allocator are arguments of the steps.
-/

namespace SServer.Net

open SServer.Lib

/-! ## Runs -/

/-- A connection with the payloads handed to `do_fd_send` so far, put together. -/
structure StreamSt where
  conn : SendConn
  handed : List UInt8

/-- A connection as `add_fdinfo_to_epinfo` registers it. -/
def streamInit : StreamSt :=
  { conn := { buff := emptyBuff, registered := true, epollout := false, wire := [] }
    handed := [] }

/-- A call of `do_fd_send`, with the bytes a fresh heap block would have, or an
`EPOLLOUT` event; either with what `send` answers meanwhile. -/
inductive StreamLbl where
  | send (data : Mem) (len : Int) (fresh : Mem) (outs : List SendRes)
  | writable (outs : List SendRes)

/-- One call on a registered connection; allocations succeed. -/
def streamStep (max : Int) : StreamLbl → StreamSt → Option StreamSt
  | .send data len fresh outs, s =>
    if s.conn.registered = true ∧ 0 < len then
      match doFdSend max (some fresh) s.conn data len outs with
      | .ok (_, c, _) => some { conn := c, handed := s.handed ++ bytes data len }
      | .error _ => none
    else none
  | .writable outs, s =>
    if s.conn.registered = true then
      match epollOut s.conn outs with
      | .ok (c, _) => some { s with conn := c }
      | .error _ => none
    else none

/-- Unless the connection is closed, what the kernel has taken is a prefix of
what was handed over, and the rest of it waits in `sbf`. -/
def StreamOk (s : StreamSt) : Prop :=
  s.conn.registered = true →
    s.conn.wire <+: s.handed ∧ s.handed = s.conn.wire ++ s.conn.buff.pending

/-- The answers to a `safe_tcp_send_n` of `total` bytes have no `EAGAIN` before
all of them are taken or `send` fails. -/
def TakenWhole (total : Int) : List SendRes → Prop
  | [] => True
  | o :: outs =>
    total ≤ 0 ∨
      match o with
      | .sent n => TakenWhole (total - n) outs
      | .eintr => TakenWhole total outs
      | .eagain => False
      | .err => True

/-- The condition on a step: the message of a `do_fd_send` is not cut short. -/
def SendsWhole : StreamLbl → StreamSt → Prop
  | .send _ len _ outs, _ => TakenWhole len outs
  | .writable _, _ => True

/-! ## The loop -/

/-- The loop returns `-1` or the number of bytes taken, which is the total
exactly when the answers took it whole. -/
theorem sendLoop_spec {total : Int} : ∀ {outs : List SendRes} {sent : Int} {s : Sent},
    sent ≤ total → sendLoop total sent outs = .ok s →
    s.ret = -1 ∧ TakenWhole (total - sent) outs ∨
      s.ret = s.taken ∧ sent ≤ s.taken ∧ s.taken ≤ total ∧
        (TakenWhole (total - sent) outs ↔ s.taken = total) := by
  intro outs
  induction outs with
  | nil =>
    intro sent s hle h
    unfold sendLoop at h
    by_cases hdone : total ≤ sent
    · rw [if_pos hdone] at h
      cases h
      exact Or.inr ⟨rfl, Int.le_refl _, hle, by simp [TakenWhole]; omega⟩
    · rw [if_neg hdone] at h
      cases h
  | cons o outs ih =>
    intro sent s hle h
    unfold sendLoop at h
    by_cases hdone : total ≤ sent
    · rw [if_pos hdone] at h
      cases h
      refine Or.inr ⟨rfl, Int.le_refl _, hle, ?_⟩
      simp [TakenWhole]
      omega
    rw [if_neg hdone] at h
    have hopen : ¬ total - sent ≤ 0 := by omega
    cases o with
    | sent n =>
      simp only at h
      by_cases hmore : total < sent + n
      · rw [if_pos hmore] at h
        cases h
      · rw [if_neg hmore] at h
        have hrest := ih (by omega) h
        -- `n` bytes less are to come
        have hsub : total - (sent + n) = total - sent - n := by omega
        rw [hsub] at hrest
        simp only [TakenWhole, hopen, false_or]
        rcases hrest with hret | ⟨hret, hlo, hhi, hiff⟩
        · exact Or.inl hret
        · exact Or.inr ⟨hret, by omega, hhi, hiff⟩
    | eintr =>
      simp only [TakenWhole, hopen, false_or]
      exact ih hle h
    | eagain =>
      cases h
      refine Or.inr ⟨rfl, Int.le_refl _, hle, ?_⟩
      simp [TakenWhole, hopen]
      omega
    | err =>
      cases h
      exact Or.inl ⟨rfl, by simp [TakenWhole]⟩

/-! ## The invariant -/

/-- Nothing waits and nothing was ever allocated; all that was handed over has
been taken. -/
def AllTaken (s : StreamSt) : Prop :=
  s.conn.registered = true →
    s.conn.buff.slen = 0 ∧ s.conn.buff.sbf = none ∧ s.handed = s.conn.wire

/-- Nothing has been handed over. -/
theorem allTaken_init : AllTaken streamInit := fun _ => ⟨rfl, rfl, rfl⟩

/-- The invariant says that the stream is in order. -/
theorem AllTaken.streamOk {s : StreamSt} (h : AllTaken s) : StreamOk s := by
  intro hreg
  rcases h hreg with ⟨_, hsbf, heq⟩
  have hpending : s.conn.buff.pending = [] := by
    unfold FdBuff.pending
    rw [hsbf]
  rw [hpending, List.append_nil, heq]
  exact ⟨List.prefix_refl _, rfl⟩

/-- What `do_fd_send` does when nothing waits and nothing was ever allocated:
a message taken whole leaves it so or closes the connection, and one that is
cut short is dropped behind the cut. -/
theorem doFdSend_clean {max : Int} {fresh data : Mem} {c c' : SendConn} {len r : Int}
    {outs rest : List SendRes} (hslen : c.buff.slen = 0) (hsbf : c.buff.sbf = none)
    (h : doFdSend max (some fresh) c data len outs = .ok (r, c', rest)) :
    TakenWhole len outs ∧ (c'.registered = false ∨ c'.buff.slen = 0 ∧ c'.buff.sbf = none ∧
        c'.wire = c.wire ++ bytes data len) ∨
      ¬ TakenWhole len outs ∧ c'.registered = c.registered ∧ c'.buff.slen = 0 ∧
        ∃ n, n < len ∧ c'.wire = c.wire ++ bytes data n := by
  rcases doFdSend_cases h with ⟨hpos, _⟩ | ⟨_, hlen, s, hsend, hcase⟩ | ⟨hneg, _⟩
  · omega
  swap
  · omega
  have hspec := sendLoop_spec (by omega) hsend
  rw [Int.sub_zero] at hspec
  rcases hspec with ⟨hret, htaken⟩ | ⟨hret, hlo, hhi, hiff⟩
  · -- `send` failed, and the connection is closed
    rcases hcase with ⟨_, _, _, rfl⟩ | ⟨hok, _⟩
    · exact Or.inl ⟨htaken, Or.inl rfl⟩
    · exact absurd hret hok
  rcases hcase with ⟨hfail, _⟩ | ⟨_, hkept⟩
  · omega
  rcases sendRest_cases hkept with ⟨_, ⟨hdone, rfl⟩ | ⟨hcut, _, sbf, rfl⟩ | ⟨_, hsome, _⟩⟩
  · have hall : s.taken = len := by omega
    refine Or.inl ⟨hiff.mpr hall, Or.inr ?_⟩
    rw [hall]
    simp [sendEvents, SendConn.take, hslen, hsbf]
  · -- cut short: the fresh buffer is taken for a failed allocation
    refine Or.inr ⟨fun hwhole => ?_, rfl, hslen, s.taken, by omega, rfl⟩
    have hall := hiff.mp hwhole
    omega
  · simp only [SendConn.take, hsbf] at hsome
    cases hsome

/-- An `EPOLLOUT` event with nothing waiting touches the interest mask only. -/
theorem epollOut_clean {c c' : SendConn} {outs rest : List SendRes} (hslen : c.buff.slen = 0)
    (h : epollOut c outs = .ok (c', rest)) : c' = { c with epollout := false } := by
  unfold epollOut at h
  rw [if_neg (by omega)] at h
  simp only [hslen, if_pos] at h
  cases h
  rfl

/-- A step of a run whose steps so far were all whole: either its message is
whole and all is taken again, or the property fails behind it. -/
theorem streamStep_cases {max : Int} {l : StreamLbl} {s t : StreamSt} (h : AllTaken s)
    (hstep : streamStep max l s = some t) :
    SendsWhole l s ∧ AllTaken t ∨ ¬ SendsWhole l s ∧ ¬ StreamOk t := by
  cases l with
  | send data len fresh outs =>
    simp only [streamStep] at hstep
    by_cases hc : s.conn.registered = true ∧ 0 < len
    swap
    · rw [if_neg hc] at hstep
      cases hstep
    rw [if_pos hc] at hstep
    rcases h hc.1 with ⟨hslen, hsbf, heq⟩
    cases hsend : doFdSend max (some fresh) s.conn data len outs with
    | error e =>
      rw [hsend] at hstep
      cases hstep
    | ok out =>
      rcases out with ⟨r, c, rest⟩
      rw [hsend] at hstep
      cases hstep
      rcases doFdSend_clean hslen hsbf hsend with
        ⟨hwhole, hout⟩ | ⟨hcut, hreg, hslen', n, hn, hwire⟩
      · left
        refine ⟨hwhole, fun hopen => ?_⟩
        rcases hout with hclosed | ⟨hslen', hsbf', hwire⟩
        · rw [hclosed] at hopen
          cases hopen
        · exact ⟨hslen', hsbf', by rw [hwire, heq]⟩
      · right
        refine ⟨hcut, fun hok => ?_⟩
        rcases hok (hreg.trans hc.1) with ⟨_, hall⟩
        -- nothing waits, so a part of the message is nowhere
        have hpending : c.buff.pending.length = 0 := by
          unfold FdBuff.pending
          rw [hslen']
          split <;> rfl
        have hlen := congrArg List.length hall
        simp only [hwire, heq, List.length_append, bytes_length, hpending] at hlen
        omega
  | writable outs =>
    simp only [streamStep] at hstep
    by_cases hreg : s.conn.registered = true
    swap
    · rw [if_neg hreg] at hstep
      cases hstep
    rw [if_pos hreg] at hstep
    rcases h hreg with ⟨hslen, hsbf, heq⟩
    cases hout : epollOut s.conn outs with
    | error e =>
      rw [hout] at hstep
      cases hstep
    | ok out =>
      rcases out with ⟨c, rest⟩
      rw [hout] at hstep
      cases hstep
      cases epollOut_clean hslen hout
      exact Or.inl ⟨trivial, fun _ => ⟨hslen, hsbf, heq⟩⟩

/-- **One stream.** In every state of a run from a fresh connection the kernel
has taken a prefix of what was handed over and the rest waits in `sbf`, if and
only if no message of the run is cut short by `EAGAIN` in its direct send. -/
theorem stream_iff_sends_whole (max : Int) (ls : List StreamLbl) :
    Throughout (streamStep max) StreamOk ls streamInit ↔
      Along (streamStep max) SendsWhole ls streamInit :=
  throughout_iff_along _ (fun _ => AllTaken.streamOk) (fun _ _ _ => streamStep_cases)
    allTaken_init

/-- Three bytes of which the kernel takes one. -/
def cutShort : StreamLbl := .send (fun i => i.toNat.toUInt8) 3 (fun _ => 0) [.sent 1, .eagain]

/-- The other two are neither sent nor kept, and the connection stays open. -/
theorem cutShort_not_streamOk :
    ∃ s, streamStep 65536 cutShort streamInit = some s ∧ s.conn.registered = true ∧
      ¬ StreamOk s := by
  have hsome : (streamStep 65536 cutShort streamInit).isSome := by decide
  have hfacts : ∀ s ∈ streamStep 65536 cutShort streamInit, s.conn.registered = true ∧
      s.conn.wire = [0] ∧ s.handed = [0, 1, 2] ∧ s.conn.buff.pending = [] := by decide
  rcases Option.isSome_iff_exists.mp hsome with ⟨s, hs⟩
  rcases hfacts s hs with ⟨hreg, hwire, hhanded, hpending⟩
  refine ⟨s, hs, hreg, fun hok => ?_⟩
  have hall := (hok hreg).2
  rw [hwire, hhanded, hpending] at hall
  cases hall

end SServer.Net
