import SServer.Lib.Mem
import Mathlib.Data.List.TakeWhile

/-!
# SServer.Lib.CStr — strings that end in a zero byte

A string is the list of its bytes, none of which is zero. `Holds p s` says that the
pointer `p` leads to the string `s` with its terminator behind it, which is what
comparing the two comes to. A pointer leads to at most one string.

* `holds_iff`: what `Holds` says byte by byte: those of the string, and a zero behind them.
* `Holds.unique`: a pointer leads to one string, so reading back what was copied cannot give
  another one.
* `holds_strcpy`: behind `strcpy` the target leads to the string that was copied; `Holds.congr`
  is its frame rule.
* `Holds.cstr`: a reader that looks at no more than `n` bytes finds the string where its zero is
  among them.

Bytes behind the terminator are never looked at, and no encoding is assumed.
-/

namespace SServer.Lib

/-- The string `s` and its terminator stand behind the pointer `p`. -/
def Holds (p : Mem) (s : List UInt8) : Prop := bytes p (s.length + 1) = s ++ [0]

instance (p : Mem) (s : List UInt8) : Decidable (Holds p s) := inferInstanceAs (Decidable (_ = _))

/-- `strcpy` to the address `d`. -/
def strcpy (m : Mem) (d : Int) (s : List UInt8) : Mem :=
  memcpy m d (ofBytes (s ++ [0])) (s.length + 1)

/-- The string behind a pointer, cut off after `n` bytes. -/
def cstr (n : Nat) (p : Mem) : List UInt8 := (bytes p n).takeWhile (· ≠ 0)

/-- `Holds` byte by byte: the string, with its terminator behind it. -/
theorem holds_iff {p : Mem} {s : List UInt8} :
    Holds p s ↔ ∀ i : Nat, i ≤ s.length → (s ++ [0])[i]? = some (p i) := by
  constructor
  · intro h i hi
    rw [← h]
    exact bytes_getElem? (by omega)
  · intro h
    apply List.ext_getElem?
    intro i
    by_cases hi : i ≤ s.length
    · rw [h i hi]
      exact bytes_getElem? (by omega)
    · rw [List.getElem?_eq_none (by simp; omega), List.getElem?_eq_none (by simp; omega)]

/-- A byte of the string. -/
theorem Holds.getElem? {p : Mem} {s : List UInt8} (h : Holds p s) {i : Nat} (hi : i < s.length) :
    s[i]? = some (p i) := by
  rw [← holds_iff.mp h i (by omega), List.getElem?_append_left hi]

/-- The terminator. -/
theorem Holds.zero {p : Mem} {s : List UInt8} (h : Holds p s) : p s.length = 0 := by
  have hend := holds_iff.mp h s.length (Nat.le_refl _)
  rw [List.getElem?_append_right (Nat.le_refl _), Nat.sub_self] at hend
  exact (Option.some.inj hend).symm

/-- Of two strings behind one pointer the longer one would have a terminator inside. -/
theorem Holds.length_le {p : Mem} {s t : List UInt8} (hs : Holds p s) (ht : Holds p t)
    (hnz : 0 ∉ t) : t.length ≤ s.length := by
  by_contra hlt
  have hmem := ht.getElem? (i := s.length) (by omega)
  rw [hs.zero] at hmem
  exact hnz (List.mem_of_getElem? hmem)

/-- **A pointer leads to one string.** -/
theorem Holds.unique {p : Mem} {s t : List UInt8} (hs : Holds p s) (ht : Holds p t)
    (hsz : 0 ∉ s) (htz : 0 ∉ t) : s = t := by
  have hlen : s.length = t.length :=
    Nat.le_antisymm (ht.length_le hs hsz) (hs.length_le ht htz)
  have heq : s ++ [0] = t ++ [0] := by
    unfold Holds at hs ht
    rw [← hs, ← ht, hlen]
  exact List.append_cancel_right heq

/-- Whether a string stands behind a pointer depends on its bytes only. -/
theorem Holds.congr {p p' : Mem} {s : List UInt8} (h : Holds p s)
    (heq : ∀ i, 0 ≤ i → i ≤ (s.length : Int) → p i = p' i) : Holds p' s := by
  unfold Holds at h ⊢
  rw [← h]
  refine bytes_congr fun i h0 hi => ?_
  exact (heq i h0 (by omega)).symm

/-- A copied string is there. -/
theorem holds_strcpy (m : Mem) (d : Int) (s : List UInt8) : Holds ((strcpy m d s).ptr d) s := by
  have hread := bytes_memcpy_same m d (ofBytes (s ++ [0])) (Int.le_refl (s.length + 1))
  have hlen : ((s ++ [0]).length : Int) = s.length + 1 := by simp
  have hself := bytes_ofBytes (s ++ [0])
  rw [hlen] at hself
  exact hread.trans hself

/-- A string is read up to the first zero byte. -/
theorem cstr_of_zero {p : Mem} {n k : Nat} (hk : k < n) (hz : p k = 0) : cstr n p = cstr k p := by
  have hsplit : bytes p n = bytes p k ++ 0 :: bytes (p.ptr (k + 1)) (n - (k + 1)) := by
    have hsum : (n : Int) = k + (1 + (n - (k + 1))) := by omega
    have hone : bytes (p.ptr k) 1 = [0] := by simp [bytes, hz]
    rw [hsum, bytes_add p (by omega) (by omega), bytes_add (p.ptr k) (by omega) (by omega), hone,
      Mem.ptr_ptr, ← hsum]
    rfl
  unfold cstr
  rw [hsplit, List.takeWhile_append, List.takeWhile_cons_of_neg (by simp), List.append_nil]
  by_cases hall : ((bytes p k).takeWhile (· ≠ 0)).length = (bytes p k).length
  · rw [if_pos hall]
    exact ((List.takeWhile_prefix _).eq_of_length hall).symm
  · rw [if_neg hall]

/-- A string depends on the bytes up to a zero byte only. -/
theorem cstr_congr {p p' : Mem} {n k : Nat} (hk : k < n) (hz : p k = 0)
    (heq : ∀ i, 0 ≤ i → i ≤ (k : Int) → p i = p' i) : cstr n p = cstr n p' := by
  have hz' : p' k = 0 := by rw [← heq k (by omega) (Int.le_refl _), hz]
  rw [cstr_of_zero hk hz, cstr_of_zero hk hz']
  unfold cstr
  rw [bytes_congr fun i h0 hi => heq i h0 (by omega)]

/-- A string that ends is shorter than the bound. -/
theorem cstr_length_lt {p : Mem} {n k : Nat} (hk : k < n) (hz : p k = 0) :
    (cstr n p).length < n := by
  have hle : (cstr k p).length ≤ k := by
    refine ((List.takeWhile_prefix _).length_le).trans ?_
    rw [bytes_length]
    omega
  rw [cstr_of_zero hk hz]
  omega

/-- A string that does not end is as long as the bound. -/
theorem cstr_length_of_ne {p : Mem} {n : Nat} (h : ∀ i, 0 ≤ i → i < (n : Int) → p i ≠ 0) :
    (cstr n p).length = n := by
  have hall : (bytes p n).takeWhile (· ≠ 0) = bytes p n := by
    rw [List.takeWhile_eq_self_iff]
    intro b hb
    obtain ⟨i, hi, rfl⟩ := List.mem_map.mp hb
    rw [List.mem_range] at hi
    exact decide_eq_true (h i (by omega) (by omega))
  unfold cstr
  rw [hall, bytes_length]
  omega

/-- A string that ends within the bound is read as it is. -/
theorem Holds.cstr {p : Mem} {s : List UInt8} (h : Holds p s) (hnz : 0 ∉ s) {n : Nat}
    (hn : s.length < n) : Lib.cstr n p = s := by
  have hread : bytes p s.length = s := (bytes_split (by omega) h).1
  rw [cstr_of_zero hn h.zero]
  unfold Lib.cstr
  rw [hread, List.takeWhile_eq_self_iff]
  intro b hb
  exact decide_eq_true fun hzero => hnz (hzero ▸ hb)

end SServer.Lib
