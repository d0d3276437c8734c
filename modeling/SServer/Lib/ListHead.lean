import Mathlib.Data.List.Nodup
import Mathlib.Logic.Function.Basic

/-!
# SServer.Lib.ListHead — intrusive circular lists

Doubly linked lists in the manner of `list_head`: the links stand in the nodes
themselves, a list is a ring through its head, and a node that is in no list
points to itself, or nowhere before its first use. Several rings share one set
of links.

`IsList l h xs` says that the ring of the head `h` goes through the nodes `xs`,
each of them once. The operations are those of `list.h`; following a null
pointer is `none`. Each has one rule, which also says what it leaves alone.

* `IsList.unique`: the links make one list, so a list can be read off them.
* `listAddTail_spec`: `list_add_tail` appends a node that is in no list.
* `listDelInit_spec`: `list_del_init` takes a node out of its list, and leaves it pointing to
  itself.
* `IsList.congr`: rings whose nodes were not touched are what they were.

The nodes are of any type with decidable equality; the memory they stand in is not modelled.
-/

namespace SServer.Lib

universe u

variable {N : Type u}

/-- The links of all nodes; `none` is a null pointer. -/
structure ListHead (N : Type u) where
  next : N → Option N
  prev : N → Option N

section Operations

variable [DecidableEq N]

/-- `INIT_LIST_HEAD`. -/
def initListHead (n : N) (l : ListHead N) : ListHead N :=
  { next := Function.update l.next n (some n)
    prev := Function.update l.prev n (some n) }

/-- `__list_add(new, prev, next)`, its four stores in order. -/
def listAdd (new prev next : N) (l : ListHead N) : ListHead N :=
  let l : ListHead N := { l with prev := Function.update l.prev next (some new) }
  let l : ListHead N := { l with next := Function.update l.next new (some next) }
  let l : ListHead N := { l with prev := Function.update l.prev new (some prev) }
  { l with next := Function.update l.next prev (some new) }

/-- `list_add_tail`. -/
def listAddTail (new head : N) (l : ListHead N) : Option (ListHead N) :=
  (l.prev head).map fun prev => listAdd new prev head l

/-- `__list_del(prev, next)`. -/
def listDel (prev next : N) (l : ListHead N) : ListHead N :=
  { prev := Function.update l.prev next (some prev)
    next := Function.update l.next prev (some next) }

/-- `list_del_init`. -/
def listDelInit (entry : N) (l : ListHead N) : Option (ListHead N) :=
  match l.prev entry, l.next entry with
  | some prev, some next => some (initListHead entry (listDel prev next l))
  | _, _ => none

end Operations

/-! ## Paths and rings -/

/-- The links lead from `a` through `xs` to `b`, and back. -/
def Path (l : ListHead N) : N → List N → N → Prop
  | a, [], b => l.next a = some b ∧ l.prev b = some a
  | a, x :: xs, b => (l.next a = some x ∧ l.prev x = some a) ∧ Path l x xs b

/-- The list headed by `h` holds the nodes `xs`, in this order and each once. -/
def IsList (l : ListHead N) (h : N) (xs : List N) : Prop := Path l h xs h ∧ (h :: xs).Nodup

/-- A path depends on the links of its nodes only. -/
theorem Path.congr {l l' : ListHead N} : ∀ {xs : List N} {a b : N}, Path l a xs b →
    (∀ m ∈ a :: xs, l'.next m = l.next m) → (∀ m ∈ xs ++ [b], l'.prev m = l.prev m) →
    Path l' a xs b := by
  intro xs
  induction xs with
  | nil =>
    intro a b h hnext hprev
    constructor
    · rw [hnext a List.mem_cons_self]
      exact h.1
    · rw [hprev b List.mem_cons_self]
      exact h.2
  | cons x xs ih =>
    intro a b h hnext hprev
    constructor
    · constructor
      · rw [hnext a List.mem_cons_self]
        exact h.1.1
      · rw [hprev x List.mem_cons_self]
        exact h.1.2
    · refine ih h.2 (fun m hm => hnext m (List.mem_cons_of_mem a hm)) fun m hm => ?_
      exact hprev m (List.mem_cons_of_mem x hm)

/-- What happens to other nodes does not touch a list. -/
theorem IsList.congr {l l' : ListHead N} {h : N} {xs : List N} (hl : IsList l h xs)
    (hsame : ∀ m ∈ h :: xs, l'.next m = l.next m ∧ l'.prev m = l.prev m) : IsList l' h xs := by
  refine ⟨hl.1.congr (fun m hm => (hsame m hm).1) fun m hm => (hsame m ?_).2, hl.2⟩
  rcases List.mem_append.mp hm with hxs | hh
  · exact List.mem_cons_of_mem h hxs
  · rw [List.mem_singleton.mp hh]
    exact List.mem_cons_self

/-- Where a path leads first. -/
theorem Path.next {l : ListHead N} {xs : List N} {a b : N} (h : Path l a xs b) :
    l.next a = some (xs.headD b) := by
  cases xs with
  | nil => exact h.1
  | cons x xs => exact h.1.1

/-- A path from one of its nodes on. -/
theorem Path.suffix {l : ListHead N} {ys : List N} {x b : N} : ∀ {xs : List N} {a : N},
    Path l a (xs ++ x :: ys) b → Path l x ys b := by
  intro xs
  induction xs with
  | nil =>
    intro a h
    exact h.2
  | cons _ xs ih =>
    intro a h
    exact ih h.2

/-- There is one path to a node that is not on it. -/
theorem Path.unique {l : ListHead N} {b : N} : ∀ {xs ys : List N} {a : N},
    Path l a xs b → Path l a ys b → b ∉ xs → b ∉ ys → xs = ys := by
  intro xs
  induction xs with
  | nil =>
    intro ys a hx hy _ hby
    cases ys with
    | nil => rfl
    | cons y ys =>
      have heq := hx.1.symm.trans hy.1.1
      rw [Option.some.inj heq] at hby
      exact absurd List.mem_cons_self hby
  | cons x xs ih =>
    intro ys a hx hy hbx hby
    cases ys with
    | nil =>
      have heq := hy.1.symm.trans hx.1.1
      rw [Option.some.inj heq] at hbx
      exact absurd List.mem_cons_self hbx
    | cons y ys =>
      have heq := Option.some.inj (hx.1.1.symm.trans hy.1.1)
      rw [← heq] at hy hby ⊢
      rw [ih hx.2 hy.2 (fun hb => hbx (List.mem_cons_of_mem x hb))
        fun hb => hby (List.mem_cons_of_mem x hb)]

/-- **The links make one list.** -/
theorem IsList.unique {l : ListHead N} {h : N} {xs ys : List N} (hx : IsList l h xs)
    (hy : IsList l h ys) : xs = ys :=
  hx.1.unique hy.1 (List.nodup_cons.mp hx.2).1 (List.nodup_cons.mp hy.2).1

section Rules

variable [DecidableEq N]

/-- A fresh head heads the empty list. -/
theorem isList_init (l : ListHead N) (h : N) : IsList (initListHead h l) h [] := by
  constructor
  · constructor
    · exact Function.update_self _ _ _
    · exact Function.update_self _ _ _
  · exact List.nodup_singleton h

/-- Where a node is added, the links of others stay. -/
theorem listAdd_frame {new prev next m : N} (l : ListHead N) :
    (m ≠ new → m ≠ prev → (listAdd new prev next l).next m = l.next m) ∧
      (m ≠ new → m ≠ next → (listAdd new prev next l).prev m = l.prev m) := by
  constructor
  · intro hnew hprev
    simp only [listAdd, Function.update_of_ne hprev, Function.update_of_ne hnew]
  · intro hnew hnext
    simp only [listAdd, Function.update_of_ne hnew, Function.update_of_ne hnext]

/-- A new node becomes the last one of a path. -/
theorem Path.addTail {l : ListHead N} {new b : N} : ∀ {xs : List N} {a : N}, Path l a xs b →
    (a :: xs).Nodup → b ∉ xs → new ∉ a :: xs → new ≠ b →
    ∃ p ∈ a :: xs, l.prev b = some p ∧ Path (listAdd new p b l) a (xs ++ [new]) b := by
  intro xs
  induction xs with
  | nil =>
    intro a h _ _ hnew hb
    have ha : new ≠ a := fun heq => hnew (by rw [heq]; exact List.mem_cons_self)
    refine ⟨a, List.mem_cons_self, h.2, ⟨?_, ?_⟩, ?_, ?_⟩
    · simp [listAdd]
    · simp [listAdd]
    · simp [listAdd, ha]
    · simp [listAdd, Function.update_of_ne (Ne.symm hb)]
  | cons x xs ih =>
    intro a h hnodup hb hnew hne
    rw [List.nodup_cons] at hnodup
    rcases ih h.2 hnodup.2 (fun hmem => hb (List.mem_cons_of_mem x hmem))
      (fun hmem => hnew (List.mem_cons_of_mem a hmem)) hne with ⟨p, hp, hprev, hpath⟩
    refine ⟨p, List.mem_cons_of_mem a hp, hprev, ⟨?_, ?_⟩, hpath⟩
    · -- the last node is not `a`
      have hap : a ≠ p := fun heq => hnodup.1 (by rw [heq]; exact hp)
      have han : a ≠ new := fun heq => hnew (by rw [heq]; exact List.mem_cons_self)
      rw [(listAdd_frame l).1 han hap]
      exact h.1.1
    · have hxb : x ≠ b := fun heq => hb (by rw [← heq]; exact List.mem_cons_self)
      have hxn : x ≠ new :=
        fun heq => hnew (by rw [← heq]; exact List.mem_cons_of_mem a List.mem_cons_self)
      rw [(listAdd_frame l).2 hxn hxb]
      exact h.1.2

/-- **`list_add_tail`** appends a node that is not in the list. -/
theorem listAddTail_spec {l : ListHead N} {h new : N} {xs : List N} (hl : IsList l h xs)
    (hnew : new ∉ h :: xs) : ∃ l', listAddTail new h l = some l' ∧ IsList l' h (xs ++ [new]) ∧
      ∀ m, m ∉ new :: h :: xs → l'.next m = l.next m ∧ l'.prev m = l.prev m := by
  rcases hl with ⟨hpath, hnodup⟩
  have hne : new ≠ h := fun heq => hnew (by rw [heq]; exact List.mem_cons_self)
  have hh : h ∉ xs := (List.nodup_cons.mp hnodup).1
  rcases hpath.addTail hnodup hh hnew hne with ⟨p, hp, hprev, hadded⟩
  refine ⟨listAdd new p h l, by unfold listAddTail; rw [hprev]; rfl, ⟨hadded, ?_⟩, ?_⟩
  · rw [← List.cons_append]
    refine List.nodup_append.mpr ⟨hnodup, List.nodup_singleton new, ?_⟩
    intro m hm n hn heq
    rw [List.mem_singleton.mp hn] at heq
    exact hnew (heq ▸ hm)
  · intro m hm
    have hmn : m ≠ new := fun heq => hm (by rw [heq]; exact List.mem_cons_self)
    have hmem : m ∉ h :: xs := fun hmem => hm (List.mem_cons_of_mem new hmem)
    have hmp : m ≠ p := fun heq => hmem (heq ▸ hp)
    have hmh : m ≠ h := fun heq => hmem (by rw [heq]; exact List.mem_cons_self)
    exact ⟨(listAdd_frame l).1 hmn hmp, (listAdd_frame l).2 hmn hmh⟩

/-- A node of a path can be taken out of it. -/
theorem Path.del {l : ListHead N} {e b : N} : ∀ {xs : List N} {a : N}, Path l a xs b →
    (a :: xs).Nodup → b ∉ xs → e ∈ xs →
    ∃ p q, l.prev e = some p ∧ l.next e = some q ∧ p ∈ a :: xs ∧ q ∈ xs ++ [b] ∧
      Path (listDel p q l) a (xs.erase e) b := by
  intro xs
  induction xs with
  | nil =>
    intro a _ _ _ he
    exact (List.not_mem_nil he).elim
  | cons x xs ih =>
    intro a h hnodup hb he
    rw [List.nodup_cons] at hnodup
    have hxs := List.nodup_cons.mp hnodup.2
    by_cases hx : x = e
    · -- its neighbours are `a` and what follows
      rw [hx] at h hnodup hxs hb ⊢
      rw [List.erase_cons_head]
      cases xs with
      | nil =>
        refine ⟨a, b, h.1.2, h.2.1, List.mem_cons_self, ?_, ?_, ?_⟩
        · exact List.mem_append_right _ (List.mem_singleton.mpr rfl)
        · exact Function.update_self _ _ _
        · exact Function.update_self _ _ _
      | cons y ys =>
        refine ⟨a, y, h.1.2, h.2.1.1, List.mem_cons_self, ?_, ⟨?_, ?_⟩, ?_⟩
        · exact List.mem_append_left _ (List.mem_cons_of_mem e List.mem_cons_self)
        · exact Function.update_self _ _ _
        · exact Function.update_self _ _ _
        · refine h.2.2.congr (fun m hm => ?_) fun m hm => ?_
          · have hma : m ≠ a := fun heq => hnodup.1 (heq ▸ List.mem_cons_of_mem e hm)
            exact Function.update_of_ne hma _ _
          · have hmy : m ≠ y := by
              intro heq
              rcases List.mem_append.mp hm with hys | hlast
              · exact (List.nodup_cons.mp hxs.2).1 (heq ▸ hys)
              · rw [List.mem_singleton.mp hlast] at heq
                exact hb (heq ▸ List.mem_cons_of_mem e List.mem_cons_self)
            exact Function.update_of_ne hmy _ _
    · have he' : e ∈ xs := by
        rcases List.mem_cons.mp he with heq | hmem
        · exact absurd heq.symm hx
        · exact hmem
      rcases ih h.2 hnodup.2 (fun hmem => hb (List.mem_cons_of_mem x hmem)) he' with
        ⟨p, q, hprev, hnext, hp, hq, hpath⟩
      rw [List.erase_cons_tail (by simpa using hx)]
      refine ⟨p, q, hprev, hnext, List.mem_cons_of_mem a hp, List.mem_cons_of_mem x hq, ⟨?_, ?_⟩,
        hpath⟩
      · have hap : a ≠ p := fun heq => hnodup.1 (heq ▸ hp)
        exact (Function.update_of_ne hap _ _).trans h.1.1
      · have hxq : x ≠ q := by
          intro heq
          rcases List.mem_append.mp hq with hmem | hlast
          · exact hxs.1 (heq ▸ hmem)
          · rw [List.mem_singleton.mp hlast] at heq
            exact hb (heq ▸ List.mem_cons_self)
        exact (Function.update_of_ne hxq _ _).trans h.1.2

/-- **`list_del_init`** takes a node out of its list. -/
theorem listDelInit_spec {l : ListHead N} {h e : N} {xs : List N} (hl : IsList l h xs)
    (he : e ∈ xs) : ∃ l', listDelInit e l = some l' ∧ IsList l' h (xs.erase e) ∧
      ∀ m, m ∉ h :: xs → l'.next m = l.next m ∧ l'.prev m = l.prev m := by
  rcases hl with ⟨hpath, hnodup⟩
  have hcons := List.nodup_cons.mp hnodup
  rcases hpath.del hnodup hcons.1 he with ⟨p, q, hprev, hnext, hp, hq, hdel⟩
  have hqmem : q ∈ h :: xs := by
    rcases List.mem_append.mp hq with hmem | hlast
    · exact List.mem_cons_of_mem h hmem
    · rw [List.mem_singleton.mp hlast]
      exact List.mem_cons_self
  refine ⟨initListHead e (listDel p q l), by unfold listDelInit; rw [hprev, hnext], ⟨?_, ?_⟩, ?_⟩
  · -- pointing the node to itself touches nobody who is left
    have hgone : e ∉ h :: xs.erase e := by
      intro hmem
      rcases List.mem_cons.mp hmem with heq | hin
      · exact hcons.1 (heq ▸ he)
      · exact hcons.2.not_mem_erase hin
    refine hdel.congr (fun m hm => ?_) fun m hm => ?_
    · have hme : m ≠ e := fun heq => hgone (heq ▸ hm)
      exact Function.update_of_ne hme _ _
    · have hme : m ≠ e := by
        intro heq
        rcases List.mem_append.mp hm with hin | hlast
        · rw [heq] at hin
          exact hgone (List.mem_cons_of_mem h hin)
        · rw [heq] at hlast
          rw [List.mem_singleton.mp hlast] at hgone
          exact hgone List.mem_cons_self
      exact Function.update_of_ne hme _ _
  · refine List.nodup_cons.mpr ⟨fun hmem => hcons.1 (List.mem_of_mem_erase hmem), ?_⟩
    exact hcons.2.erase e
  · intro m hm
    have hme : m ≠ e := fun heq => hm (heq ▸ List.mem_cons_of_mem h he)
    have hmp : m ≠ p := fun heq => hm (heq ▸ hp)
    have hmq : m ≠ q := fun heq => hm (heq ▸ hqmem)
    constructor
    · exact (Function.update_of_ne hme _ _).trans (Function.update_of_ne hmp _ _)
    · exact (Function.update_of_ne hme _ _).trans (Function.update_of_ne hmq _ _)

end Rules

end SServer.Lib
