import SServer.Proto.Model

/-!
# SServer.Proto.Service — what the callbacks should see of a connection

The abstract counterpart of a connection's way through the two queues and the
session table: messages are framed; the session is opened, once; then the framed
messages are processed one after the other, each with that session; then it is
closed, and nothing more is processed. `serve` accepts exactly these event
sequences. That the events of a connection are a run of it is shown in
`SServer.Proto.Delivery`; here is what follows from that.

* `serve_in_order`: the messages processed are those framed, in their order.
* `serve_opened`, `serve_closings`, `serve_closed`: the session is opened first; it is closed at
  most once; and nothing is processed behind it.
* `served_of_exec`: so a run of the service is good service.

`Served` is a statement about a list of events, without a state: what a user of the server can
rely on.
-/

namespace SServer.Proto

open SServer.Lib SServer.Queue SServer.Worker

/-- A connection in service, with the messages that are framed and not processed. -/
inductive Service where
  | waiting (todo : List (List UInt8))
  | live (todo : List (List UInt8))
  | ended
deriving DecidableEq

/-- One event of a connection whose session is `x₀`. -/
def serve (x₀ : Sess) : Ev → Service → Option Service
  | .framed _ data, .waiting todo => some (.waiting (todo ++ [data]))
  | .framed _ data, .live todo => some (.live (todo ++ [data]))
  | .framed _ _, .ended => some .ended
  | .opened x, .waiting todo => if x = x₀ then some (.live todo) else none
  | .proc _ data x, .live (next :: todo) =>
    if x = x₀ ∧ data = next then some (.live todo) else none
  | .onClosed x, .live _ => if x = x₀ then some .ended else none
  | _, _ => none

/-- The connection that an event is about: for a call of `proc_cli_msg` that of the
bytes, else that of the session. -/
def Ev.conn : Ev → Option Conn
  | .framed conn _ => some conn
  | .opened x | .onClosed x => x.conn
  | .proc conn _ _ => conn

/-- The events of a connection, in order. -/
def eventsOf (c : Conn) (evs : List Ev) : List Ev := evs.filter fun e => e.conn = some c

/-- The messages that were framed. -/
def framesOf (evs : List Ev) : List (List UInt8) :=
  evs.filterMap fun
    | .framed _ data => some data
    | _ => none

/-- The payloads that were processed. -/
def procsOf (evs : List Ev) : List (List UInt8) :=
  evs.filterMap fun
    | .proc _ data _ => some data
    | _ => none

/-- How often `on_cli_closed` was called. -/
def closingsOf (evs : List Ev) : Nat :=
  evs.countP fun
    | .onClosed _ => true
    | _ => false

/-- **Good service**, of a connection with session `x₀`: the payloads processed are
a prefix of the messages framed, each is processed with that session,
`on_cli_closed` is called at most once, for that session and after it was opened,
and behind it nothing is processed. -/
structure Served (x₀ : Sess) (evs : List Ev) : Prop where
  in_order : procsOf evs <+: framesOf evs
  own_session : ∀ o data x, .proc o data x ∈ evs → x = x₀
  closed_once : closingsOf evs ≤ 1
  opened_first : ∀ pre x post, evs = pre ++ .onClosed x :: post → x = x₀ ∧ .opened x₀ ∈ pre
  none_after : ∀ pre x post, evs = pre ++ .onClosed x :: post → ∀ o data y, .proc o data y ∉ post

/-! ## Steps of the service -/

variable {x₀ : Sess}

/-- More messages are framed. -/
def Service.add : Service → List (List UInt8) → Service
  | .waiting todo, more => .waiting (todo ++ more)
  | .live todo, more => .live (todo ++ more)
  | .ended, _ => .ended

/-- No message is framed. -/
@[simp] theorem Service.add_nil (st : Service) : st.add [] = st := by
  cases st with
  | waiting todo => exact congrArg Service.waiting (List.append_nil todo)
  | live todo => exact congrArg Service.live (List.append_nil todo)
  | ended => rfl

/-- A message may be framed at any time. -/
theorem serve_framed (c : Conn) (data : List UInt8) (st : Service) :
    serve x₀ (.framed c data) st = some (st.add [data]) := by
  cases st with
  | waiting todo | live todo | ended => rfl

/-- The events of a connection in two parts of a run. -/
theorem eventsOf_append (c : Conn) (evs evs' : List Ev) :
    eventsOf c (evs ++ evs') = eventsOf c evs ++ eventsOf c evs' :=
  List.filter_append evs evs'

/-- An event of the connection. -/
theorem eventsOf_self {c : Conn} (e : Ev) (h : e.conn = some c) : eventsOf c [e] = [e] :=
  List.filter_cons_of_pos (decide_eq_true h)

/-- Events of others are not among them. -/
theorem eventsOf_other {c : Conn} {evs : List Ev} (h : ∀ e ∈ evs, e.conn ≠ some c) :
    eventsOf c evs = [] :=
  List.filter_eq_nil_iff.mpr fun e he heq => h e he (of_decide_eq_true heq)

/-- Events of other connections make no difference. -/
theorem eventsOf_append_other {c : Conn} {evs' : List Ev} (h : ∀ e ∈ evs', e.conn ≠ some c)
    (evs : List Ev) : eventsOf c (evs ++ evs') = eventsOf c evs := by
  rw [eventsOf_append, eventsOf_other h, List.append_nil]

/-! ## Runs of the service -/

/-- When the service is over, only messages are still framed. -/
theorem serve_ended : ∀ {evs : List Ev} {st : Service}, exec (serve x₀) evs .ended = some st →
    ∀ e ∈ evs, ∃ c data, e = .framed c data := by
  intro evs
  induction evs with
  | nil =>
    intro st _ e he
    cases he
  | cons e evs ih =>
    intro st h e' he'
    rcases exec_cons_some.mp h with ⟨m, hm, hrest⟩
    cases e with
    | framed c data =>
      cases hm
      rcases List.mem_cons.mp he' with hnow | hlater
      · exact ⟨c, data, hnow⟩
      · exact ih hrest e' hlater
    | opened x => cases hm
    | proc o data x => cases hm
    | onClosed x => cases hm

/-- A service that has ended processes nothing. -/
theorem procsOf_ended {evs : List Ev} {st : Service} (h : exec (serve x₀) evs .ended = some st) :
    procsOf evs = [] := by
  unfold procsOf
  rw [List.filterMap_eq_nil_iff]
  intro e he
  rcases serve_ended h e he with ⟨c, data, heq⟩
  rw [heq]

/-- Nor does it close once more. -/
theorem closingsOf_ended {evs : List Ev} {st : Service} (h : exec (serve x₀) evs .ended = some st) :
    closingsOf evs = 0 := by
  unfold closingsOf
  rw [List.countP_eq_zero]
  intro e he
  rcases serve_ended h e he with ⟨c, data, heq⟩
  rw [heq]
  simp

/-- The messages that are left to process. -/
def Service.todo : Service → List (List UInt8)
  | .waiting todo | .live todo => todo
  | .ended => []

/-- What is processed was left to process, or is framed on the way. -/
theorem serve_in_order : ∀ {evs : List Ev} {st st' : Service},
    exec (serve x₀) evs st = some st' → procsOf evs <+: st.todo ++ framesOf evs := by
  intro evs
  induction evs with
  | nil =>
    intro st st' _
    exact List.nil_prefix
  | cons e evs ih =>
    intro st st' h
    rcases exec_cons_some.mp h with ⟨m, hm, hrest⟩
    cases st with
    | waiting todo =>
      cases e with
      | framed c data =>
        cases hm
        have hpre := ih hrest
        rw [Service.todo, List.append_assoc] at hpre
        exact hpre
      | opened x =>
        simp only [serve, Option.ite_none_right_eq_some] at hm
        cases hm.2
        have hpre := ih hrest
        exact hpre
      | proc o data x => cases hm
      | onClosed x => cases hm
    | live todo =>
      cases e with
      | framed c data =>
        cases hm
        have hpre := ih hrest
        rw [Service.todo, List.append_assoc] at hpre
        exact hpre
      | proc o data x =>
        cases todo with
        | nil => cases hm
        | cons next todo =>
          simp only [serve, Option.ite_none_right_eq_some] at hm
          rcases hm with ⟨⟨_, hdata⟩, hlive⟩
          cases hlive
          rw [hdata]
          -- the message processed is the first one that waited
          exact (List.prefix_cons_inj next).mpr (ih hrest)
      | onClosed x =>
        simp only [serve, Option.ite_none_right_eq_some] at hm
        cases hm.2
        -- behind `on_cli_closed` nothing is processed
        have hnil : procsOf evs = [] := procsOf_ended hrest
        change procsOf evs <+: _
        rw [hnil]
        exact List.nil_prefix
      | opened x => cases hm
    | ended =>
      rw [procsOf_ended h]
      exact List.nil_prefix

/-- A service closes at most once. -/
theorem serve_closings : ∀ {evs : List Ev} {st st' : Service},
    exec (serve x₀) evs st = some st' → closingsOf evs ≤ 1 := by
  intro evs
  induction evs with
  | nil =>
    intro st st' _
    exact Nat.zero_le 1
  | cons e evs ih =>
    intro st st' h
    rcases exec_cons_some.mp h with ⟨m, hm, hrest⟩
    cases e with
    | framed c data => exact ih hrest
    | opened x => exact ih hrest
    | proc o data x => exact ih hrest
    | onClosed x =>
      -- the one closing, and none behind it
      have hended : m = .ended := by
        cases st with
        | waiting todo => cases hm
        | ended => cases hm
        | live todo =>
          simp only [serve, Option.ite_none_right_eq_some] at hm
          exact (Option.some.inj hm.2).symm
      rw [hended] at hrest
      have hnone := closingsOf_ended hrest
      unfold closingsOf at hnone ⊢
      rw [List.countP_cons, hnone]
      simp

/-- A live service was opened. -/
theorem serve_opened : ∀ {evs : List Ev} {todo todo' : List (List UInt8)},
    exec (serve x₀) evs (.waiting todo) = some (.live todo') → .opened x₀ ∈ evs := by
  intro evs
  induction evs with
  | nil =>
    intro todo todo' h
    cases h
  | cons e evs ih =>
    intro todo todo' h
    rcases exec_cons_some.mp h with ⟨m, hm, hrest⟩
    cases e with
    | framed c data =>
      cases hm
      exact List.mem_cons_of_mem _ (ih hrest)
    | opened x =>
      simp only [serve, Option.ite_none_right_eq_some] at hm
      rw [hm.1]
      exact List.mem_cons_self
    | proc o data x => cases hm
    | onClosed x => cases hm

/-- A closing within a run is that of the session, and the service is over behind it. -/
theorem serve_closed {evs pre post : List Ev} {x : Sess} {st : Service}
    (h : exec (serve x₀) evs (.waiting []) = some st) (hevs : evs = pre ++ .onClosed x :: post) :
    x = x₀ ∧ .opened x₀ ∈ pre ∧ exec (serve x₀) post .ended = some st := by
  rw [hevs, exec_append, Option.bind_eq_some_iff] at h
  rcases h with ⟨m, hpre, hrest⟩
  rcases exec_cons_some.mp hrest with ⟨m', hm', hpost⟩
  cases m with
  | waiting todo => cases hm'
  | ended => cases hm'
  | live todo =>
    simp only [serve, Option.ite_none_right_eq_some] at hm'
    rcases hm' with ⟨hx, hended⟩
    cases hended
    exact ⟨hx, serve_opened hpre, hpost⟩

/-- **A run of the service is good service.** -/
theorem served_of_exec {evs : List Ev} {st : Service}
    (h : exec (serve x₀) evs (.waiting []) = some st) : Served x₀ evs := by
  constructor
  · exact serve_in_order h
  · intro o data x hmem
    rcases List.append_of_mem hmem with ⟨pre, post, hevs⟩
    rw [hevs, exec_append, Option.bind_eq_some_iff] at h
    rcases h with ⟨m, _, hrest⟩
    rcases exec_cons_some.mp hrest with ⟨m', hm', _⟩
    cases m with
    | waiting todo => cases hm'
    | ended => cases hm'
    | live todo =>
      cases todo with
      | nil => cases hm'
      | cons next todo =>
        simp only [serve, Option.ite_none_right_eq_some] at hm'
        exact hm'.1.1
  · exact serve_closings h
  · intro pre x post hevs
    rcases serve_closed h hevs with ⟨hx, hopened, _⟩
    exact ⟨hx, hopened⟩
  · intro pre x post hevs o data y hmem
    rcases serve_closed h hevs with ⟨_, _, hended⟩
    rcases serve_ended hended _ hmem with ⟨c, d, heq⟩
    cases heq

end SServer.Proto
