import SServer.Lib.Fields

/-!
# SServer.Lib.Strs — strings side by side, and copies of them

Strings that stand one behind another, each with its terminator, and loops that copy
strings: to blocks of their own, or once more side by side. A copy that stays away from a
string leaves it as it is.

* `dupAll_spec`: a loop of `strdup`: every copy is there, and nothing but the blocks has
  changed.
* `moveAll_spec`: a loop that packs strings side by side, where there was room for all of them.
* `StrAt.In.memcpy`, `StrAt.In.copy`: frame rules: a string that a copy stays away from.

The blocks that an allocator hands out are parameters; that they are apart is a hypothesis.
-/

namespace SServer.Lib

/-- `strlen`, of a string of less than `max` bytes. -/
def strlen (max : Nat) (p : Mem) : Nat := (cstr max p).length

/-- A string and where it stands. -/
structure StrAt where
  pos : Int
  str : List UInt8

/-- The bytes that it takes. -/
def StrAt.field (x : StrAt) : Field := (x.pos, x.str.length + 1)

/-- It stands there. -/
def StrAt.In (x : StrAt) (m : Mem) : Prop := Holds (m.ptr x.pos) x.str

instance (x : StrAt) (m : Mem) : Decidable (x.In m) := inferInstanceAs (Decidable (Holds _ _))

/-- A string whose length `strlen` can tell. -/
def Plain (max : Nat) (s : List UInt8) : Prop := 0 ∉ s ∧ s.length < max

instance (max : Nat) (s : List UInt8) : Decidable (Plain max s) :=
  inferInstanceAs (Decidable (_ ∧ _))

/-- Strings side by side. -/
def placed (p : Int) : List (List UInt8) → List StrAt
  | [] => []
  | s :: ss => ⟨p, s⟩ :: placed (p + (s.length + 1)) ss

/-- What they take. -/
def total : List (List UInt8) → Nat
  | [] => 0
  | s :: ss => s.length + 1 + total ss

theorem total_cons (s : List UInt8) (ss : List (List UInt8)) :
    total (s :: ss) = s.length + 1 + total ss := rfl

/-- The room that strings take up adds up. -/
theorem total_append (ss ts : List (List UInt8)) : total (ss ++ ts) = total ss + total ts := by
  induction ss with
  | nil => exact (Nat.zero_add _).symm
  | cons s ss ih =>
    rw [List.cons_append, total_cons, total_cons, ih]
    exact (Nat.add_assoc _ _ _).symm

/-- More strings stand behind the room of those before them. -/
theorem placed_append (p : Int) (ss ts : List (List UInt8)) :
    placed p (ss ++ ts) = placed p ss ++ placed (p + total ss) ts := by
  induction ss generalizing p with
  | nil => simp [placed, total]
  | cons s ss ih =>
    show _ :: placed _ (ss ++ ts) = (_ :: placed _ ss) ++ placed _ ts
    have hsum : p + (s.length + 1) + (total ss : Nat) = p + (total (s :: ss) : Nat) := by
      rw [total_cons]
      omega
    rw [ih, hsum, List.cons_append]

/-- They stand in what they take. -/
theorem placed_within {p : Int} {ss : List (List UInt8)} {x : StrAt} (hx : x ∈ placed p ss) :
    p ≤ x.pos ∧ x.pos + (x.str.length + 1) ≤ p + total ss ∧ x.str ∈ ss := by
  induction ss generalizing p with
  | nil => cases hx
  | cons s ss ih =>
    rw [total_cons]
    unfold placed at hx
    rcases List.mem_cons.mp hx with rfl | hmem
    · refine ⟨Int.le_refl _, ?_, List.mem_cons_self⟩
      simp only
      omega
    · rcases ih hmem with ⟨hlo, hhi, hstr⟩
      refine ⟨by omega, by omega, List.mem_cons_of_mem s hstr⟩

/-- Placing strings changes none of them. -/
theorem placed_str (p : Int) (ss : List (List UInt8)) : (placed p ss).map (·.str) = ss := by
  induction ss generalizing p with
  | nil => rfl
  | cons s ss ih =>
    unfold placed
    rw [List.map_cons, ih]

/-- Nor does it lose one. -/
theorem placed_length (p : Int) (ss : List (List UInt8)) : (placed p ss).length = ss.length := by
  have hlen := congrArg List.length (placed_str p ss)
  rwa [List.length_map] at hlen

/-- The last one ends where all end. -/
theorem placed_last {ss : List (List UInt8)} (hne : ss ≠ []) (p : Int) :
    ∃ x ∈ placed p ss, ((placed p ss).map (·.pos)).getLastD 0 = x.pos ∧
      x.pos + (x.str.length + 1) = p + total ss := by
  induction ss generalizing p with
  | nil => exact absurd rfl hne
  | cons s ss ih =>
    rw [total_cons]
    cases hss : ss with
    | nil =>
      refine ⟨⟨p, s⟩, List.mem_cons_self, rfl, ?_⟩
      simp [total]
    | cons s' ss' =>
      obtain ⟨x, hx, hlast, hend⟩ := ih (by simp [hss]) (p + (s.length + 1))
      rw [hss] at hx hlast hend
      refine ⟨x, List.mem_cons_of_mem _ hx, hlast, ?_⟩
      omega

/-- Inside a field. -/
def Field.Within (f g : Field) : Prop := g.1 ≤ f.1 ∧ f.1 + f.2 ≤ g.1 + g.2

/-- Parts of fields that are apart are apart. -/
theorem Field.Apart.mono {f f' g g' : Field} (h : Field.Apart f g) (hf : f'.Within f)
    (hg : g'.Within g) : Field.Apart f' g' := by
  rcases hf with ⟨hf, hf'⟩
  rcases hg with ⟨hg, hg'⟩
  rcases h with hle | hle
  · left
    omega
  · right
    omega

theorem Field.within_self (f : Field) : f.Within f := ⟨Int.le_refl _, Int.le_refl _⟩

theorem Field.Apart.symm {f g : Field} (h : Field.Apart f g) : Field.Apart g f := Or.symm h

/-! ## One string -/

variable {max : Nat} {m : Mem}

/-- `strlen` of a string that is there. -/
theorem StrAt.In.strlen {x : StrAt} (h : x.In m) (hx : Plain max x.str) :
    Lib.strlen max (m.ptr x.pos) = x.str.length := by
  unfold Lib.strlen
  rw [Holds.cstr h hx.1 hx.2]

/-- What is stored elsewhere leaves a string. -/
theorem StrAt.In.frame {x : StrAt} {m' : Mem} (h : x.In m)
    (hsame : ∀ a, x.pos ≤ a → a < x.pos + (x.str.length + 1) → m' a = m a) : x.In m' := by
  refine Holds.congr h fun i h0 hi => ?_
  rw [Mem.ptr_apply, Mem.ptr_apply]
  exact (hsame _ (by omega) (by omega)).symm

/-- A copy that stays away from a string leaves it there. -/
theorem StrAt.In.memcpy {x : StrAt} (h : x.In m) {d n : Int} (src : Mem)
    (hapart : Field.Apart x.field (d, n)) : x.In (memcpy m d src n) := by
  refine h.frame fun a hlo hhi => memcpy_out ?_
  rcases hapart with hle | hle
  · simp only [StrAt.field] at hle
    omega
  · simp only [StrAt.field] at hle
    omega

/-- A copy of a string, with its terminator. -/
theorem StrAt.In.copy {x : StrAt} (h : x.In m) (d : Int) :
    StrAt.In ⟨d, x.str⟩ (Lib.memcpy m d (m.ptr x.pos) (x.str.length + 1)) := by
  refine Holds.congr h fun i h0 hi => ?_
  simp only [Mem.ptr_apply] at hi ⊢
  rw [memcpy_in (by omega)]
  congr 1
  omega

/-! ## Copies in blocks of their own -/

/-- `strdup` of each string, to the block that comes with it. -/
def dupAll (max : Nat) : List (Int × Int) → Mem → Mem
  | [], m => m
  | (p, d) :: cs, m => dupAll max cs (memcpy m d (m.ptr p) (strlen max (m.ptr p) + 1))

/-- The copy of a string. -/
def dupOf (c : StrAt × Int) : StrAt := ⟨c.2, c.1.str⟩

/-- **Every copy is there**, and nothing but the blocks has changed: for strings and blocks that
are apart. -/
theorem dupAll_spec {cs : List (StrAt × Int)} (hplain : ∀ c ∈ cs, Plain max c.1.str)
    (hin : ∀ c ∈ cs, c.1.In m) (hsrc : ∀ c ∈ cs, ∀ d ∈ cs, Field.Apart c.1.field (dupOf d).field)
    (hdst : cs.Pairwise fun c d => Field.Apart (dupOf c).field (dupOf d).field) :
    (∀ c ∈ cs, (dupOf c).In (dupAll max (cs.map fun c => (c.1.pos, c.2)) m)) ∧
      ∀ a, (∀ c ∈ cs, a < c.2 ∨ c.2 + (c.1.str.length + 1) ≤ a) →
        dupAll max (cs.map fun c => (c.1.pos, c.2)) m a = m a := by
  induction cs generalizing m with
  | nil => exact ⟨by simp, fun _ _ => rfl⟩
  | cons c cs ih =>
    rw [List.forall_mem_cons] at hplain hin
    rw [List.pairwise_cons] at hdst
    rw [List.map_cons]
    unfold dupAll
    rw [hin.1.strlen hplain.1]
    -- the first copy leaves the other strings alone
    have hstill : ∀ d ∈ cs, d.1.In (memcpy m c.2 (m.ptr c.1.pos) (c.1.str.length + 1)) := by
      intro d hd
      exact (hin.2 d hd).memcpy _ (hsrc d (List.mem_cons_of_mem c hd) c List.mem_cons_self)
    obtain ⟨hcopies, hframe⟩ := ih hplain.2 hstill
      (fun d hd e he => hsrc d (List.mem_cons_of_mem c hd) e (List.mem_cons_of_mem c he)) hdst.2
    refine ⟨List.forall_mem_cons.mpr ⟨?_, hcopies⟩, fun a ha => ?_⟩
    · -- later copies stay away from the first
      have hfirst : (dupOf c).In (memcpy m c.2 (m.ptr c.1.pos) (c.1.str.length + 1)) :=
        hin.1.copy c.2
      refine hfirst.frame fun a hlo hhi => hframe a fun d hd => ?_
      rcases hdst.1 d hd with hle | hle
      · simp only [StrAt.field, dupOf] at hle hlo hhi
        omega
      · simp only [StrAt.field, dupOf] at hle hlo hhi
        omega
    · rw [List.forall_mem_cons] at ha
      rw [hframe a ha.2, memcpy_out ha.1]

/-! ## Copies side by side -/

/-- Each string is copied behind the one before: the memory, the end of the last string, which
`size` counts on from, and the new pointers. -/
def moveAll (max : Nat) : List Int → Mem → Int → Int → Mem × Int × List Int
  | [], m, _, size => (m, size, [])
  | p :: ps, m, d, size =>
    let len : Int := strlen max (m.ptr p) + 1
    let r := moveAll max ps (memcpy m d (m.ptr p) len) (d + len) (size + len)
    (r.1, r.2.1, d :: r.2.2)

/-- **The strings stand side by side again**, where there was room for all of them. -/
theorem moveAll_spec {xs : List StrAt} {d size : Int} (hplain : ∀ x ∈ xs, Plain max x.str)
    (hin : ∀ x ∈ xs, x.In m)
    (hapart : ∀ x ∈ xs, Field.Apart x.field (d, (total (xs.map (·.str)) : Nat))) :
    let r := moveAll max (xs.map (·.pos)) m d size
    (∀ x ∈ placed d (xs.map (·.str)), x.In r.1) ∧ r.2.1 = size + total (xs.map (·.str)) ∧
      r.2.2 = (placed d (xs.map (·.str))).map (·.pos) ∧
      ∀ a, a < d ∨ d + total (xs.map (·.str)) ≤ a → r.1 a = m a := by
  induction xs generalizing m d size with
  | nil => exact ⟨by simp [placed], by simp [moveAll, total], rfl, fun _ _ => rfl⟩
  | cons x xs ih =>
    rw [List.forall_mem_cons] at hplain hin
    simp only [List.map_cons, total_cons] at hapart
    have hfirst := hapart x List.mem_cons_self
    -- the strings to move are below or above all the room
    have hstill : ∀ y ∈ xs, y.In (memcpy m d (m.ptr x.pos) (x.str.length + 1)) := by
      intro y hy
      refine (hin.2 y hy).memcpy _ ?_
      rcases hapart y (List.mem_cons_of_mem x hy) with hle | hle
      · exact Or.inl hle
      · right
        simp only at hle ⊢
        omega
    have hrest : ∀ y ∈ xs, Field.Apart y.field
        (d + (x.str.length + 1), (total (xs.map (·.str)) : Nat)) := by
      intro y hy
      rcases hapart y (List.mem_cons_of_mem x hy) with hle | hle
      · left
        simp only at hle ⊢
        omega
      · right
        simp only at hle ⊢
        omega
    obtain ⟨hplaced, hend, hptrs, hframe⟩ := @ih _ (d + (x.str.length + 1))
      (size + (x.str.length + 1)) hplain.2 hstill hrest
    simp only [List.map_cons]
    unfold moveAll placed
    simp only [hin.1.strlen hplain.1, total_cons]
    refine ⟨List.forall_mem_cons.mpr ⟨?_, hplaced⟩, ?_, ?_, fun a ha => ?_⟩
    · -- the strings behind it come behind it
      refine (hin.1.copy d).frame fun a hlo hhi => hframe a (Or.inl ?_)
      simp only at hhi
      omega
    · rw [hend]
      omega
    · rw [hptrs]
      rfl
    · rw [hframe a (by omega), memcpy_out (by omega)]

end SServer.Lib
