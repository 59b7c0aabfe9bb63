import Mathlib
import TreeMan.Proof.FilterOperation

/-!
# Every row a field index answers is one of its rows

A field index is built over the rows of `items()` and keeps its rows below
its `size` (`IndexField.Bounded`, `bounded_build`). Every query of it, and
so `filter_operation` and `filter_operations`, answers rows below `size`
(`lt_of_filterOperation`, `lt_of_filterOperations`).

The field-index path of `FilterData` relies on this bound when it reads the
answered rows as positions of the view (`Narrowing`).
-/

namespace TreeMan

theorem asU32_le (i : Nat) : asU32 i ≤ i := Nat.mod_le _ _

theorem lt_of_mem_bitmapOfIndices {n : Nat} {l : List Nat} (hl : ∀ i ∈ l, i < n) {x : Nat}
    (hx : x ∈ bitmapOfIndices l) : x < n := by
  obtain ⟨i, hi, rfl⟩ := mem_bitmapOfIndices.mp hx
  exact lt_of_le_of_lt (asU32_le i) (hl i hi)

theorem lt_of_mem_fullBitmap {n x : Nat} (hx : x ∈ fullBitmap n) : x < n :=
  lt_of_lt_of_le (mem_fullBitmap.mp hx) (asU32_le n)

namespace IndexField

variable {V : Type} [LinearOrder V] {α : Type}

/-- Every row an index names lies below its row count: the rows of each
key's bitmap and of each sorted pair. -/
structure Bounded (idx : IndexField V) : Prop where
  bitmap : ∀ e ∈ idx.values.entries, ∀ x ∈ e.2.bitmap, x < idx.size
  sorted : ∀ l, idx.sortedValues = some l → ∀ p ∈ l, p.2 < idx.size

/-- `build` names only its rows: a key's bitmap holds the rows pushed under
it, and a sorted pair the row it was made of. -/
theorem bounded_build (items : List α) (e : α → V) : (build items e).Bounded := by
  by_cases hne : items = []
  · subst hne
    exact ⟨fun _ h => by simp [build, default, SortedMap.empty] at h, fun _ h => by cases h⟩
  rw [build_of_ne_nil hne]
  refine ⟨fun kb hkb x hx => ?_, fun l hl p hp => ?_⟩
  · obtain ⟨⟨k, l⟩, hkl, rfl⟩ := List.mem_map.mp hkb
    have hget : (keyRows items e).getD k [] = l := by
      rw [SortedMap.getD, SortedMap.find?_eq_some_iff.mpr hkl, Option.getD_some]
    refine lt_of_mem_bitmapOfIndices (fun i hi => ?_) hx
    rw [← hget, getD_keyRows] at hi
    obtain ⟨⟨i', k'⟩, hm, rfl⟩ := List.mem_map.mp hi
    exact (mem_rowKeys.mp (List.mem_filter.mp hm).1).1
  · cases hl
    obtain ⟨h, -⟩ := mem_sortedPairs.mp hp
    exact h

theorem lt_of_mem_andNotBitmapOf {self : IndexField V} {r : RoaringBitmap} (hr : ∀ x ∈ r, x < self.size) (v : V) :
    ∀ x ∈ self.andNotBitmapOf r v, x < self.size := by
  unfold IndexField.andNotBitmapOf
  split
  · exact fun x hx => hr x (SortedSet.mem_diff.mp hx).1
  · exact hr

theorem lt_of_mem_foldl_andNotBitmapOf {self : IndexField V} {r : RoaringBitmap} (hr : ∀ x ∈ r, x < self.size)
    (vs : List V) : ∀ x ∈ vs.foldl self.andNotBitmapOf r, x < self.size := by
  induction vs generalizing r with
  | nil => exact hr
  | cons v vs ih => exact ih (lt_of_mem_andNotBitmapOf hr v)

section Queries

variable {self : IndexField V} (hb : self.Bounded) {b : RoaringBitmap}
include hb

theorem Bounded.getBitmap {v : V} (h : self.getBitmap v = some b) : ∀ x ∈ b, x < self.size := by
  simp only [IndexField.getBitmap, Option.map_eq_some_iff] at h
  obtain ⟨bi, hbi, rfl⟩ := h
  exact hb.bitmap (v, bi) (SortedMap.find?_eq_some_iff.mp hbi)

theorem Bounded.orBitmapOf {r : RoaringBitmap} (hr : ∀ x ∈ r, x < self.size) (v : V) :
    ∀ x ∈ self.orBitmapOf r v, x < self.size := by
  unfold IndexField.orBitmapOf
  split
  · rename_i bm hbm
    intro x hx
    rcases SortedSet.mem_union.mp hx with hx | hx
    · exact hr x hx
    · exact hb.getBitmap hbm x hx
  · exact hr

theorem Bounded.foldl_orBitmapOf {r : RoaringBitmap} (hr : ∀ x ∈ r, x < self.size)
    (vs : List V) : ∀ x ∈ vs.foldl self.orBitmapOf r, x < self.size := by
  induction vs generalizing r with
  | nil => exact hr
  | cons v vs ih => exact ih (hb.orBitmapOf hr v)

/-- A range query answers rows of the index: on the fast path the rows of a
slice of the sorted pairs, on the fallback the union of the bitmaps of the
keys in range. -/
theorem Bounded.valueRange {start stop : Bound V} (h : self.valueRange start stop = some b) :
    ∀ x ∈ b, x < self.size := by
  unfold IndexField.valueRange at h
  split at h
  · rename_i fast hfast
    cases h
    unfold valueRangeFast at hfast
    split at hfast
    · cases hfast
    · rename_i sorted hsorted
      dsimp only at hfast
      split_ifs at hfast
      · cases hfast
        simp
      · cases hfast
        refine fun x hx => lt_of_mem_bitmapOfIndices (fun i hi => ?_) hx
        obtain ⟨p, hp, rfl⟩ := List.mem_map.mp hi
        exact hb.sorted sorted hsorted p (List.take_subset _ _ (List.drop_subset _ _ hp))
  · cases h
    intro x hx
    obtain ⟨ent, hent, hx⟩ :=
      ((SortedSet.mem_foldl_union (fun e : V × BitIndex => e.2.bitmap) _ SortedSet.empty x).mp
        hx).resolve_left
        (SortedSet.not_mem_empty x)
    exact hb.bitmap ent (List.mem_filter.mp hent).1 x hx

end Queries

end IndexField

namespace IndexFieldEnum

variable {N : Numerics} {self : IndexFieldEnum N} (hb : self.idx.Bounded) {b : RoaringBitmap}
include hb

open IndexField in
/-- `filter_operation` answers rows of the index. -/
theorem lt_of_filterOperation {op : FieldOperation N} (h : self.filterOperation op = .ok b) :
    ∀ x ∈ b, x < self.len := by
  unfold filterOperation at h
  dsimp only at h
  cases op with
  | eq v =>
    obtain ⟨c, -, hq⟩ := singleValue_eq_ok h
    exact hb.getBitmap hq
  | notEq v =>
    obtain ⟨c, -, hq⟩ := singleValue_eq_ok h
    cases hq
    exact lt_of_mem_andNotBitmapOf (fun x hx => lt_of_mem_fullBitmap hx) c
  | gt v =>
    obtain ⟨c, -, hq⟩ := singleValue_eq_ok h
    exact hb.valueRange hq
  | gte v =>
    obtain ⟨c, -, hq⟩ := singleValue_eq_ok h
    exact hb.valueRange hq
  | lt v =>
    obtain ⟨c, -, hq⟩ := singleValue_eq_ok h
    exact hb.valueRange hq
  | lte v =>
    obtain ⟨c, -, hq⟩ := singleValue_eq_ok h
    exact hb.valueRange hq
  | inValues vs =>
    dsimp only at h
    split_ifs at h
    cases okOr_eq_ok.mp h
    exact hb.foldl_orBitmapOf (fun x hx => absurd hx (SortedSet.not_mem_empty x)) _
  | notInValues vs =>
    dsimp only at h
    split_ifs at h
    cases okOr_eq_ok.mp h
    exact lt_of_mem_foldl_andNotBitmapOf (fun x hx => lt_of_mem_fullBitmap hx) _
  | range s e =>
    dsimp only at h
    split at h
    · exact hb.valueRange (okOr_eq_ok.mp h)
    · cases h

/-- The loop of `filter_operations` keeps its bitmap among the rows. -/
theorem lt_of_foldlM_filterOperation {rest : List (FieldOperation N × Op)} {r : RoaringBitmap}
    (hr : ∀ x ∈ r, x < self.len)
    (h : rest.foldlM (fun result p => do
        let bitmap ← self.filterOperation p.1
        pure (p.2.apply self.len result bitmap)) r = .ok b) :
    ∀ x ∈ b, x < self.len := by
  induction rest generalizing r with
  | nil =>
    cases h
    exact hr
  | cons p rest ih =>
    rw [List.foldlM_cons] at h
    cases hp : self.filterOperation p.1 with
    | error err => simp [hp] at h; cases h
    | ok bm =>
      simp only [hp] at h
      exact ih (fun x hx => lt_of_mem_apply (asU32_le _) hr
        (lt_of_filterOperation hb hp) hx) h

/-- `filter_operations` answers rows of the index. -/
theorem lt_of_filterOperations {ops : List (FieldOperation N × Op)}
    (h : self.filterOperations ops = .ok b) : ∀ x ∈ b, x < self.len := by
  cases ops with
  | nil => cases h
  | cons first rest =>
    simp only [filterOperations] at h
    cases h0 : self.filterOperation first.1 with
    | error err => simp [h0] at h; cases h
    | ok r =>
      rw [h0] at h
      exact lt_of_foldlM_filterOperation hb (lt_of_filterOperation hb h0) h

end IndexFieldEnum

end TreeMan
