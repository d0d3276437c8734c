import SServer.Lib.Mem

/-!
# SServer.Net.Buff — `fd_buff_t`

The buffers of one descriptor: a send buffer on the heap, which grows, and a
receive buffer mapped once. Sizes and counts are the ints of the source.

* `FdBuff`: the lengths `slen`, `rlen` and `msglen` with the two buffers, and `sbf_size`.
* `FdBuff.Ints`: the range that the fields of the source have. A theorem about every state of a
  connection assumes it; one about runs from a fresh connection proves the bounds that it needs.
* `intSub`: the difference of two ints, which wraps. `intSub_toInt` says that it is the
  machine's, `intSub_of_le` that it is exact for `0 ≤ b ≤ a`, which is every use of it on a
  sound buffer.
* `Fault`: how a call goes wrong without returning.

Lengths are integers here, not words; where a sum or difference of the source can leave the
ints, the function concerned says so and wraps it.
-/

namespace SServer.Net

open SServer.Lib

/-- A block of the heap: the size it was allocated with, and its bytes. -/
structure HeapBlk where
  size : Int
  mem : Mem

/-- What `rbf` points to: nothing yet, `MAP_FAILED`, or the mapped bytes. -/
inductive Rbf where
  | null
  | failed
  | mapped (mem : Mem)

/-- The bytes behind `rbf`. -/
def Rbf.mem : Rbf → Mem
  | .mapped mem => mem
  | _ => fun _ => 0

/-- `fd_buff_t`. -/
structure FdBuff where
  slen : Int
  rlen : Int
  sbf : Option HeapBlk
  rbf : Rbf
  msglen : Int
  sbfSize : Int

/-- The buffers of a slot that `add_fdinfo_to_epinfo` has just set up, and also
what `free_buff` leaves behind. -/
def emptyBuff : FdBuff :=
  { slen := 0, rlen := 0, sbf := none, rbf := .null, msglen := 0, sbfSize := 0 }

/-- What the types of `rlen` and `msglen` say. -/
structure FdBuff.Ints (b : FdBuff) : Prop where
  rlen : -2 ^ 31 ≤ b.rlen ∧ b.rlen < 2 ^ 31
  msglen : -2 ^ 31 ≤ b.msglen ∧ b.msglen < 2 ^ 31

/-- `sbf[0..slen)`: the bytes waiting to be sent. -/
def FdBuff.pending (b : FdBuff) : List UInt8 :=
  match b.sbf with
  | none => []
  | some h => bytes h.mem b.slen

/-! ## Differences of ints -/

/-- `a - b` of two ints: a difference that is no int wraps. Between zero and its first
operand it never does, and stays as it is for sizes of any magnitude. -/
def intSub (a b : Int) : Int := if 0 ≤ b ∧ b ≤ a then a - b else (Int32.ofInt (a - b)).toInt

/-- Within the bounds of a sound buffer it is the difference. -/
theorem intSub_of_le {a b : Int} (h0 : 0 ≤ b) (hle : b ≤ a) : intSub a b = a - b :=
  if_pos ⟨h0, hle⟩

/-- On ints this is the subtraction of 32-bit words. -/
theorem intSub_toInt (a b : Int32) : intSub a.toInt b.toInt = (a - b).toInt := by
  unfold intSub
  by_cases hle : 0 ≤ b.toInt ∧ b.toInt ≤ a.toInt
  · rw [if_pos hle, Int32.toInt_sub_of_le a b]
    · exact Int32.le_iff_toInt_le.mpr hle.1
    · exact Int32.le_iff_toInt_le.mpr hle.2
  · rw [if_neg hle, Int32.toInt_ofInt, Int32.toInt_sub]

/-- It is an int. -/
theorem intSub_int {a b : Int} (ha : a < 2 ^ 31) : -2 ^ 31 ≤ intSub a b ∧ intSub a b < 2 ^ 31 := by
  unfold intSub
  by_cases hle : 0 ≤ b ∧ b ≤ a
  · rw [if_pos hle]
    omega
  · rw [if_neg hle]
    exact ⟨Int32.le_toInt _, Int32.toInt_lt _⟩

/-- What is taken off an int leaves less, and not less than nothing, exactly when it is
positive. -/
theorem intSub_less_iff {a b : Int} (h0 : 0 ≤ a) (ha : a < 2 ^ 31) (hb : -2 ^ 31 ≤ b)
    (hle : b ≤ a) : 0 ≤ intSub a b ∧ intSub a b < a ↔ 0 < b := by
  unfold intSub
  by_cases hle : 0 ≤ b ∧ b ≤ a
  · rw [if_pos hle]
    omega
  · rw [if_neg hle, Int32.toInt_ofInt, Int32.size, Int.bmod_def]
    omega

/-- A positive difference of ints stays positive exactly when it is an int. -/
theorem intSub_pos_iff {a b : Int} (ha : a < 2 ^ 31) (hb : -2 ^ 31 ≤ b) (hlt : b < a) :
    0 < intSub a b ↔ a - b < 2 ^ 31 := by
  unfold intSub
  by_cases hle : 0 ≤ b ∧ b ≤ a
  · rw [if_pos hle]
    omega
  · rw [if_neg hle, Int32.toInt_ofInt, Int32.size, Int.bmod_def]
    omega

/-- It is never more than the difference. -/
theorem intSub_le {a b : Int} (hlt : b < a) : intSub a b ≤ a - b := by
  unfold intSub
  by_cases hle : 0 ≤ b ∧ b ≤ a
  · exact Int.le_of_eq (if_pos hle)
  · rw [if_neg hle, Int32.toInt_ofInt, Int32.size, Int.bmod_def]
    omega

/-! ## Faults -/

/-- How a call of this program can go wrong without returning: a failed
`assert`, an access through a null pointer, or answers of the kernel that do
not fit the calls made (too few of them, or more bytes than were asked for),
which no kernel gives. -/
inductive Fault where
  | assertFailed
  | nullAccess
  | noAnswer
deriving DecidableEq

end SServer.Net
