import SServer.Lib.CStr

/-!
# SServer.Lib.Fields — stores to the fields of a structure

A structure is filled by stores to its fields, one after another. When each store stays
inside its field and the fields are apart, every field holds in the end what was stored
there, in whatever order that was.

* `stores_out`: bytes outside all fields are as they were.
* `stores_in`: a byte of a field is what its own store put there, whatever came before and
  behind it.
* `stores_le32`, `stores_u32`, `stores_u16`, `stores_holds`: the same for a word or a string as
  a whole: the forms that a proof about a structure uses.
-/

namespace SServer.Lib

/-- `len` bytes from `src` are stored at `pos`. -/
structure Store where
  pos : Int
  src : Mem
  len : Int

/-- Stores, one after another. -/
def stores (m : Mem) (ws : List Store) : Mem := ws.foldl (fun m w => memcpy m w.pos w.src w.len) m

/-- A field: its offset and its size. -/
abbrev Field := Int × Int

/-- Two fields have no byte in common. -/
def Field.Apart (f g : Field) : Prop := f.1 + f.2 ≤ g.1 ∨ g.1 + g.2 ≤ f.1

instance (f g : Field) : Decidable (Field.Apart f g) := inferInstanceAs (Decidable (_ ∨ _))

/-- A store stays inside a field, from its beginning on. -/
def Store.Fills (w : Store) (f : Field) : Prop := w.pos = f.1 ∧ w.len ≤ f.2

variable {m : Mem} {ws : List Store} {fs : List Field}

/-- A byte that no store touches. -/
theorem stores_out {a : Int} (h : ∀ w ∈ ws, a < w.pos ∨ w.pos + w.len ≤ a) :
    stores m ws a = m a := by
  induction ws generalizing m with
  | nil => rfl
  | cons w ws ih =>
    rw [List.forall_mem_cons] at h
    show stores (memcpy m w.pos w.src w.len) ws a = m a
    rw [ih h.2, memcpy_out h.1]

/-- Every store has its field. -/
theorem fills_mem (h : List.Forall₂ Store.Fills ws fs) {w : Store} (hw : w ∈ ws) :
    ∃ f ∈ fs, w.Fills f := by
  induction h with
  | nil => cases hw
  | @cons v f vs fs hv _ ih =>
    rcases List.mem_cons.mp hw with rfl | hmem
    · exact ⟨f, List.mem_cons_self, hv⟩
    · rcases ih hmem with ⟨g, hg, hfills⟩
      exact ⟨g, List.mem_cons_of_mem _ hg, hfills⟩

/-- **A byte that is stored** is there in the end. -/
theorem stores_in (hfills : List.Forall₂ Store.Fills ws fs) (hapart : fs.Pairwise Field.Apart)
    {w : Store} (hw : w ∈ ws) {i : Int} (h0 : 0 ≤ i) (hi : i < w.len) :
    stores m ws (w.pos + i) = w.src i := by
  induction hfills generalizing m with
  | nil => cases hw
  | @cons v f vs fs hv hrest ih =>
    rw [List.pairwise_cons] at hapart
    show stores (memcpy m v.pos v.src v.len) vs (w.pos + i) = w.src i
    rcases List.mem_cons.mp hw with heq | hmem
    · -- what comes later is stored elsewhere
      subst heq
      have hlater : ∀ u ∈ vs, w.pos + i < u.pos ∨ u.pos + u.len ≤ w.pos + i := by
        intro u hu
        rcases hv with ⟨hpos, hlen⟩
        rcases fills_mem hrest hu with ⟨g, hg, hgpos, hglen⟩
        rcases hapart.1 g hg with hle | hle
        · omega
        · omega
      rw [stores_out hlater, memcpy_in (by omega)]
      congr 1
      omega
    · exact ih hapart.2 hmem

/-- A word of 32 bits. -/
theorem stores_le32 (hfills : List.Forall₂ Store.Fills ws fs) (hapart : fs.Pairwise Field.Apart)
    {pos : Int} {v : Int32} (hw : ⟨pos, storeLe32 v, 4⟩ ∈ ws) :
    loadLe32 ((stores m ws).ptr pos) = v := by
  rw [← loadLe32_storeLe32 v]
  exact loadLe32_congr fun i h0 hi => stores_in hfills hapart hw h0 hi

/-- An unsigned word of 32 bits. -/
theorem stores_u32 (hfills : List.Forall₂ Store.Fills ws fs) (hapart : fs.Pairwise Field.Apart)
    {pos : Int} {v : UInt32} (hw : ⟨pos, storeU32 v, 4⟩ ∈ ws) :
    loadU32 ((stores m ws).ptr pos) = v := by
  rw [← loadU32_storeU32 v]
  exact loadU32_congr fun i h0 hi => stores_in hfills hapart hw h0 hi

/-- An unsigned word of 16 bits. -/
theorem stores_u16 (hfills : List.Forall₂ Store.Fills ws fs) (hapart : fs.Pairwise Field.Apart)
    {pos : Int} {v : UInt16} (hw : ⟨pos, storeU16 v, 2⟩ ∈ ws) :
    loadU16 ((stores m ws).ptr pos) = v := by
  rw [← loadU16_storeU16 v]
  exact loadU16_congr fun i h0 hi => stores_in hfills hapart hw h0 hi

/-- A string that is stored with its terminator. -/
theorem stores_holds (hfills : List.Forall₂ Store.Fills ws fs) (hapart : fs.Pairwise Field.Apart)
    {pos len : Int} {src : Mem} (hw : ⟨pos, src, len⟩ ∈ ws) {s : List UInt8} (hs : Holds src s)
    (hlen : s.length < len) : Holds ((stores m ws).ptr pos) s :=
  hs.congr fun _ h0 hi => (stores_in hfills hapart hw h0 (by simp only; omega)).symm

end SServer.Lib
