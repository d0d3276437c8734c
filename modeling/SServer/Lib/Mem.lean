import Mathlib.Tactic.Common
import Mathlib.Algebra.Group.Int.Defs
import Mathlib.Algebra.Group.Nat.Defs
import Mathlib.Data.List.Basic
import Mathlib.Data.List.Range

/-!
# SServer.Lib.Mem — byte memories, copies and little-endian words

A memory is a total function from addresses to bytes. Addresses are integers,
so that an access outside the intended range is an ordinary access that a
bound can speak about. A pointer is a memory too: `m.ptr p` is what a program
sees through a pointer to `p`, with index `0` at `p` itself. The lemmas say
which bytes a copy changes and that a 32-bit word survives being stored.

* `memcpy_in`, `memcpy_out`: the bytes of a copy and those beside it.
* `bytes_memcpy_same`, `bytes_store`: what is read back where something was copied or stored.
* `bytes_add`, `bytes_split`, `bytes_take`, `bytes_drop`: how a range of bytes comes apart.
* `loadLe32_storeLe32`, `loadU32_storeU32`, `loadU16_storeU16`: words of 32 and 16 bits survive
  being stored, and the congruence lemmas say on which bytes a load depends.

There is one flat memory without allocation, alignment or protection; a model that needs them
checks its accesses itself.
-/

namespace SServer.Lib

/-- A byte memory. -/
abbrev Mem := Int → UInt8

namespace Mem

/-- The memory seen through a pointer to `p`. -/
def ptr (m : Mem) (p : Int) : Mem := fun i => m (p + i)

/-- What a pointer sees at an index. -/
@[simp] theorem ptr_apply (m : Mem) (p i : Int) : m.ptr p i = m (p + i) := rfl

/-- A pointer moved on twice. -/
@[simp] theorem ptr_ptr (m : Mem) (p r : Int) : (m.ptr p).ptr r = m.ptr (p + r) := by
  funext i
  simp [Int.add_assoc]

@[simp] theorem ptr_zero (m : Mem) : m.ptr 0 = m := by
  funext i
  simp

end Mem

/-- Copy the `n` bytes at `src` to the address `d`. The source is read before
anything is written, so this is also an overlapping move. A non-positive `n`
copies nothing. -/
def memcpy (m : Mem) (d : Int) (src : Mem) (n : Int) : Mem :=
  fun a => if d ≤ a ∧ a < d + n then src (a - d) else m a

/-- Inside the target range a copy leaves the source's bytes. -/
theorem memcpy_in {m : Mem} {d : Int} {src : Mem} {n a : Int} (h : d ≤ a ∧ a < d + n) :
    memcpy m d src n a = src (a - d) := if_pos h

/-- Outside the target range a copy changes nothing. -/
theorem memcpy_out {m : Mem} {d : Int} {src : Mem} {n a : Int} (h : a < d ∨ d + n ≤ a) :
    memcpy m d src n a = m a := by
  apply if_neg
  omega

/-- A pointer to the bytes of a list. -/
def ofBytes (bs : List UInt8) : Mem := fun i => bs.getD i.toNat 0

/-- A byte of a list. -/
theorem ofBytes_getElem {bs : List UInt8} {i : Nat} (hi : i < bs.length) :
    ofBytes bs i = bs[i] := by
  unfold ofBytes
  rw [Int.toNat_natCast, List.getD_eq_getElem?_getD, List.getElem?_eq_getElem hi]
  rfl

/-! ## Byte ranges -/

/-- The first `n` bytes behind a pointer. -/
def bytes (p : Mem) (n : Int) : List UInt8 := (List.range n.toNat).map fun i : Nat => p i

/-- As many bytes are read as were asked for. -/
@[simp] theorem bytes_length (p : Mem) (n : Int) : (bytes p n).length = n.toNat := by
  simp [bytes]

@[simp] theorem bytes_zero (p : Mem) : bytes p 0 = [] := rfl

/-- What is read depends on the bytes of the range only. -/
theorem bytes_congr {p p' : Mem} {n : Int} (h : ∀ i, 0 ≤ i → i < n → p i = p' i) :
    bytes p n = bytes p' n := by
  apply List.map_congr_left
  intro i hi
  rw [List.mem_range] at hi
  exact h i (by omega) (by omega)

/-- A range splits at any point inside it. -/
theorem bytes_add (p : Mem) {n k : Int} (hn : 0 ≤ n) (hk : 0 ≤ k) :
    bytes p (n + k) = bytes p n ++ bytes (p.ptr n) k := by
  have hsum : (n + k).toNat = n.toNat + k.toNat := by omega
  have hcast : ((n.toNat : Nat) : Int) = n := by omega
  simp only [bytes, hsum, List.range_add, List.map_append, List.map_map]
  congr 1
  apply List.map_congr_left
  intro i _
  simp [hcast]

/-- Bytes read back after a copy to the pointer's own address. -/
theorem bytes_memcpy_same (m : Mem) (d : Int) (src : Mem) {n k : Int} (hk : k ≤ n) :
    bytes ((memcpy m d src n).ptr d) k = bytes src k := by
  apply bytes_congr
  intro i h0 hi
  rw [Mem.ptr_apply, memcpy_in (by omega)]
  congr 1
  omega

/-- The bytes of a list are read back through a pointer to it. -/
@[simp] theorem bytes_ofBytes (bs : List UInt8) : bytes (ofBytes bs) bs.length = bs := by
  apply List.ext_getElem
  · simp
  · intro i hi _
    simp only [bytes_length, Int.toNat_natCast] at hi
    simp [bytes, ofBytes, hi]

/-- Appending a list to a range. -/
theorem bytes_store (m : Mem) {n : Int} (hn : 0 ≤ n) (bs : List UInt8) :
    bytes (memcpy m n (ofBytes bs) bs.length) (n + bs.length) = bytes m n ++ bs := by
  have hold : bytes (memcpy m n (ofBytes bs) bs.length) n = bytes m n := by
    refine bytes_congr fun i _ hi => ?_
    rw [memcpy_out (by omega)]
  rw [bytes_add _ hn (by omega), hold, bytes_memcpy_same _ _ _ (Int.le_refl _), bytes_ofBytes]

/-- A range that starts with a list consists of that list and the rest. -/
theorem bytes_split {p : Mem} {n : Int} {xs ys : List UInt8} (hn : 0 ≤ n)
    (h : bytes p n = xs ++ ys) :
    bytes p xs.length = xs ∧ bytes (p.ptr xs.length) (n - xs.length) = ys := by
  have hlen := congrArg List.length h
  rw [bytes_length, List.length_append] at hlen
  have hsum : n = xs.length + (n - xs.length) := by omega
  rw [hsum, bytes_add p (by omega) (by omega)] at h
  refine List.append_inj h ?_
  simp

/-- The first bytes of a range. -/
theorem bytes_take (p : Mem) {n k : Int} (hk : 0 ≤ k) (hle : k ≤ n) :
    (bytes p n).take k.toNat = bytes p k := by
  have hsum : n = k + (n - k) := by omega
  rw [hsum, bytes_add p hk (by omega)]
  exact List.take_left' (bytes_length p k)

/-- The bytes behind them. -/
theorem bytes_drop (p : Mem) {n k : Int} (hk : 0 ≤ k) (hle : k ≤ n) :
    (bytes p n).drop k.toNat = bytes (p.ptr k) (n - k) := by
  have hsum : n = k + (n - k) := by omega
  conv_lhs => rw [hsum, bytes_add p hk (by omega)]
  exact List.drop_left' (bytes_length p k)

/-- Equal ranges agree byte by byte, here with a list. -/
theorem bytes_getElem? {p : Mem} {n : Int} {i : Nat} (hi : (i : Int) < n) :
    (bytes p n)[i]? = some (p i) := by
  have hlt : i < n.toNat := by omega
  simp [bytes, hlt]

/-! ## Little-endian 32-bit words -/

/-- Byte `i` of an integer in two's complement. -/
def leByte (v : Int) (i : Nat) : UInt8 := UInt8.ofNat ((v / (256 : Int) ^ i) % 256).toNat

/-- The four bytes of a 32-bit word, least significant first. -/
def storeLe32 (v : Int32) : Mem := fun i => leByte v.toInt i.toNat

/-- The 32-bit word behind a pointer. -/
def loadLe32 (p : Mem) : Int32 :=
  Int32.ofInt ((p 0).toNat + 256 * (p 1).toNat + 65536 * (p 2).toNat + 16777216 * (p 3).toNat)

/-- The byte of a word, as a number. -/
theorem leByte_toNat (v : Int) (i : Nat) :
    ((leByte v i).toNat : Int) = (v / (256 : Int) ^ i) % 256 := by
  have hpos := Int.emod_nonneg (v / (256 : Int) ^ i) (show (256 : Int) ≠ 0 by decide)
  have hlt := Int.emod_lt_of_pos (v / (256 : Int) ^ i) (show (0 : Int) < 256 by decide)
  rw [leByte, UInt8.toNat_ofNat']
  omega

/-- A load depends on its four bytes only. -/
theorem loadLe32_congr {p p' : Mem} (h : ∀ i, 0 ≤ i → i < 4 → p i = p' i) :
    loadLe32 p = loadLe32 p' := by
  rw [loadLe32, loadLe32, h 0 (by decide) (by decide), h 1 (by decide) (by decide),
    h 2 (by decide) (by decide), h 3 (by decide) (by decide)]

/-- A word that lies in a received range is the word of what was received. -/
theorem loadLe32_of_bytes {p : Mem} {n : Int} {xs ys : List UInt8}
    (h : bytes p n <+: xs ++ ys) (hn : 4 ≤ n) (hxs : 4 ≤ xs.length) :
    loadLe32 p = loadLe32 (ofBytes xs) := by
  rcases h with ⟨rest, hrest⟩
  refine loadLe32_congr fun i h0 hi => ?_
  have hcast : ((i.toNat : Nat) : Int) = i := by omega
  have hget := congrArg (·[i.toNat]?) hrest
  rw [List.getElem?_append_left (by rw [bytes_length]; omega),
    List.getElem?_append_left (by omega), bytes_getElem? (by omega), hcast] at hget
  rw [ofBytes, List.getD_eq_getElem?_getD, ← hget]
  rfl

/-- A stored word is read back. -/
@[simp] theorem loadLe32_storeLe32 (v : Int32) : loadLe32 (storeLe32 v) = v := by
  have hlo := v.le_toInt
  have hhi := v.toInt_lt
  have h0 := leByte_toNat v.toInt 0
  have h1 := leByte_toNat v.toInt 1
  have h2 := leByte_toNat v.toInt 2
  have h3 := leByte_toNat v.toInt 3
  simp only [Int.reducePow, Int.reduceNeg] at hlo hhi h0 h1 h2 h3
  -- the four bytes add up to the word modulo 2 ^ 32
  have hsum : ((storeLe32 v 0).toNat : Int) + 256 * (storeLe32 v 1).toNat
      + 65536 * (storeLe32 v 2).toNat + 16777216 * (storeLe32 v 3).toNat
      = v.toInt % 4294967296 := by
    simp only [storeLe32, Int.toNat_zero, Int.toNat_one, Int.reduceToNat]
    omega
  rw [loadLe32, hsum, ← Int32.toInt_inj, Int32.toInt_ofInt]
  simp only [Int32.size, Int.bmod_def]
  omega

/-! ## Little-endian unsigned words -/

/-- The bytes of an unsigned word of 32 bits. -/
def storeU32 (v : UInt32) : Mem := fun i => leByte v.toNat i.toNat

/-- The unsigned word of 32 bits behind a pointer. -/
def loadU32 (p : Mem) : UInt32 :=
  UInt32.ofNat ((p 0).toNat + 256 * (p 1).toNat + 65536 * (p 2).toNat + 16777216 * (p 3).toNat)

/-- The bytes of an unsigned word of 16 bits. -/
def storeU16 (v : UInt16) : Mem := fun i => leByte v.toNat i.toNat

/-- The unsigned word of 16 bits behind a pointer. -/
def loadU16 (p : Mem) : UInt16 := UInt16.ofNat ((p 0).toNat + 256 * (p 1).toNat)

/-- The same for an unsigned word. -/
theorem loadU32_congr {p p' : Mem} (h : ∀ i, 0 ≤ i → i < 4 → p i = p' i) :
    loadU32 p = loadU32 p' := by
  rw [loadU32, loadU32, h 0 (by decide) (by decide), h 1 (by decide) (by decide),
    h 2 (by decide) (by decide), h 3 (by decide) (by decide)]

/-- The same for the two bytes of a half word. -/
theorem loadU16_congr {p p' : Mem} (h : ∀ i, 0 ≤ i → i < 2 → p i = p' i) :
    loadU16 p = loadU16 p' := by
  rw [loadU16, loadU16, h 0 (by decide) (by decide), h 1 (by decide) (by decide)]

/-- A stored word is read back. -/
@[simp] theorem loadU32_storeU32 (v : UInt32) : loadU32 (storeU32 v) = v := by
  have hlt := v.toNat_lt
  have h0 := leByte_toNat v.toNat 0
  have h1 := leByte_toNat v.toNat 1
  have h2 := leByte_toNat v.toNat 2
  have h3 := leByte_toNat v.toNat 3
  simp only [Int.reducePow] at h0 h1 h2 h3
  apply UInt32.toNat_inj.mp
  simp only [loadU32, storeU32, UInt32.toNat_ofNat', Int.toNat_zero, Int.toNat_one,
    Int.reduceToNat]
  omega

/-- A stored word is read back. -/
@[simp] theorem loadU16_storeU16 (v : UInt16) : loadU16 (storeU16 v) = v := by
  have hlt := v.toNat_lt
  have h0 := leByte_toNat v.toNat 0
  have h1 := leByte_toNat v.toNat 1
  simp only [Int.reducePow] at h0 h1
  apply UInt16.toNat_inj.mp
  simp only [loadU16, storeU16, UInt16.toNat_ofNat', Int.toNat_zero, Int.toNat_one]
  omega

end SServer.Lib
