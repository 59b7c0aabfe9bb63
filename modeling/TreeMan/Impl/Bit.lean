import Mathlib
import TreeMan.Framework.SortedSet

/-!
# Bitmaps and bit operations (`index/bit.rs`)

A `RoaringBitmap` is a set of `u32` positions that iterates in increasing
order: a `SortedSet Nat`. Positions enter a bitmap only through the cast
`idx as u32` (`asU32`), which is kept explicit, so that what happens to
positions of `2³²` and above can be stated.

`Op` combines two bitmaps the way `Index::multi_operation` and
`IndexFieldEnum::filter_operations` do (`Op.apply`); below the full range its
effect on one position is the Boolean operation `Op.eval` (`mem_apply`).

The statistics (`IndexStats`, `density`, `memory_size`) and the parallel
variants (`to_indices_parallel`, `apply_to_fast`), which compute the same
sets, are not modelled.
-/

namespace TreeMan

/-- `Op`: the bit operations. -/
inductive Op
  | and
  | or
  | xor
  | andNot
  | invert
  deriving DecidableEq, Repr

/-- `roaring::RoaringBitmap`. -/
abbrev RoaringBitmap := SortedSet Nat

/-- `idx as u32`. -/
def asU32 (i : Nat) : Nat := i % 2 ^ 32

/-- `RoaringBitmap::from_iter(indices.iter().map(|&i| i as u32))`, the bitmap
of a list of positions. -/
def bitmapOfIndices (indices : List Nat) : RoaringBitmap :=
  SortedSet.ofList (indices.map asU32)

/-- `RoaringBitmap::from_iter(0..(size as u32))`. -/
def fullBitmap (size : Nat) : RoaringBitmap := SortedSet.range (asU32 size)

/-- `bitmap.iter().map(|idx| idx as usize).collect()`. -/
def toIndices (b : RoaringBitmap) : List Nat := b.toList

@[simp] theorem asU32_of_lt {i : Nat} (h : i < 2 ^ 32) : asU32 i = i := Nat.mod_eq_of_lt h

@[simp] theorem mem_bitmapOfIndices {x : Nat} {indices : List Nat} :
    x ∈ bitmapOfIndices indices ↔ ∃ i ∈ indices, asU32 i = x := by
  simp [bitmapOfIndices]

@[simp] theorem mem_fullBitmap {x size : Nat} : x ∈ fullBitmap size ↔ x < asU32 size := by
  simp [fullBitmap]

/-- Below `2³²` the bitmap of a strictly increasing list lists it back. -/
theorem toIndices_bitmapOfIndices {indices : List Nat}
    (hs : indices.Pairwise (· < ·)) (hb : ∀ i ∈ indices, i < 2 ^ 32) :
    toIndices (bitmapOfIndices indices) = indices := by
  have h : bitmapOfIndices indices = ⟨indices, hs⟩ := SortedSet.ext fun x => by
    rw [mem_bitmapOfIndices, SortedSet.mem_def]
    constructor
    · rintro ⟨i, hi, rfl⟩
      rwa [asU32_of_lt (hb i hi)]
    · intro hx
      exact ⟨x, hx, asU32_of_lt (hb x hx)⟩
  rw [toIndices, h]

/-- The Boolean meaning of an operation on one position: `r` is whether the
accumulated result holds it, `m` whether the other operand does. `Invert`
ignores `m`. -/
def Op.eval : Op → Bool → Bool → Bool
  | .and, r, m => r && m
  | .or, r, m => r || m
  | .xor, r, m => r ^^ m
  | .andNot, r, m => r && !m
  | .invert, r, _ => !r

@[simp] theorem Op.eval_and (r m : Bool) : Op.and.eval r m = (r && m) := rfl
@[simp] theorem Op.eval_or (r m : Bool) : Op.or.eval r m = (r || m) := rfl
@[simp] theorem Op.eval_xor (r m : Bool) : Op.xor.eval r m = (r ^^ m) := rfl
@[simp] theorem Op.eval_andNot (r m : Bool) : Op.andNot.eval r m = (r && !m) := rfl
@[simp] theorem Op.eval_invert (r m : Bool) : Op.invert.eval r m = !r := rfl

/-- One step of `multi_operation` and `filter_operations`; `Invert` replaces
the result by its complement in `0..(size as u32)`. -/
def Op.apply (op : Op) (size : Nat) (result other : RoaringBitmap) : RoaringBitmap :=
  match op with
  | .and => result.inter other
  | .or => result.union other
  | .xor => result.symmDiff other
  | .andNot => result.diff other
  | .invert => (fullBitmap size).diff result

/-- Below `size as u32`, membership after one step is `Op.eval`. -/
theorem mem_apply {op : Op} {size x : Nat} {result other : RoaringBitmap}
    (hx : x < asU32 size) :
    x ∈ op.apply size result other ↔ op.eval (decide (x ∈ result)) (decide (x ∈ other)) = true := by
  cases op <;> simp [Op.apply, Op.eval, hx]; tauto

/-- The bitmap positions after a step stay below a bound that bounds both
operands and `size as u32`. -/
theorem lt_of_mem_apply {op : Op} {size bound x : Nat} {result other : RoaringBitmap}
    (hs : asU32 size ≤ bound) (hr : ∀ y ∈ result, y < bound) (ho : ∀ y ∈ other, y < bound)
    (hx : x ∈ op.apply size result other) : x < bound := by
  cases op <;> simp only [Op.apply, SortedSet.mem_inter, SortedSet.mem_union,
    SortedSet.mem_symmDiff, SortedSet.mem_diff, mem_fullBitmap] at hx
  · exact hr x hx.1
  · exact hx.elim (hr x) (ho x)
  · exact hx.elim (fun h => hr x h.1) (fun h => ho x h.1)
  · exact hr x hx.1
  · omega

/-- `bit::Index`: a bitmap with the number of rows it ranges over. -/
structure BitIndex where
  bitmap : RoaringBitmap
  totalSize : Nat

/-- `Index::from_indices`. -/
def BitIndex.fromIndices (indices : List Nat) (totalSize : Nat) : BitIndex :=
  ⟨bitmapOfIndices indices, totalSize⟩

/-- `Index::multi_operation`, the bitmap of its `OpResult`. -/
def BitIndex.multiOperation (self : BitIndex) (operations : List (BitIndex × Op)) :
    RoaringBitmap :=
  if operations.isEmpty then self.bitmap
  else operations.foldl (fun result p => p.2.apply self.totalSize result p.1.bitmap) self.bitmap

theorem mem_foldl_apply_and {size x : Nat} (others : List BitIndex) (r : RoaringBitmap) :
    x ∈ (others.map (·, Op.and)).foldl (fun acc p => p.2.apply size acc p.1.bitmap) r ↔
      x ∈ r ∧ ∀ o ∈ others, x ∈ o.bitmap := by
  induction others generalizing r with
  | nil => simp
  | cons o rest ih =>
    simp only [List.map_cons, List.foldl_cons]
    rw [ih]
    simp only [Op.apply, SortedSet.mem_inter, List.mem_cons, forall_eq_or_imp]
    tauto

/-- With only `And` steps, `multi_operation` intersects all the bitmaps. -/
theorem mem_multiOperation_and {self : BitIndex} {others : List BitIndex} {x : Nat} :
    x ∈ self.multiOperation (others.map (·, Op.and)) ↔
      x ∈ self.bitmap ∧ ∀ o ∈ others, x ∈ o.bitmap := by
  unfold BitIndex.multiOperation
  split_ifs with h
  · simp_all
  · exact mem_foldl_apply_and others self.bitmap

end TreeMan
