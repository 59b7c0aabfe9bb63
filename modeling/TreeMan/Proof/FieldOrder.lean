import Mathlib
import TreeMan.Impl.FieldValue

/-!
# The comparisons of `FieldValue`

`eq`, `gt` and `gte` are written out separately and `lt`, `lte` are the
negations of `gte` and `gt`. The five agree with one `Ordering` of a pair
when they are its three cases and their two unions (`ComparesAs`): two
integers of a common range compare as their integer values do, whatever
their two types (`comparesAs_of_intValue?`), and two strings compare
lexicographically (`comparesAs_string`). The pair the other way round then
compares as the swapped ordering, so on integers and strings the five are
the comparisons of a total order (`comparisons_consistent`): exactly one of
`lt`, `eq`, `gt` holds, `gt` is `lt` swapped, `gte` is `lte` swapped and `eq`
is symmetric.

Two bools do not: `gt` is never true of them and `gte` is equality, so
`true.lt(false)` and `false.lt(true)` both hold (`bool_lt_both_ways`).
-/

namespace TreeMan

namespace FieldValue

variable {N : Numerics}

/-- The five comparisons of `a` with `b` are those of the ordering `o`. -/
structure ComparesAs (a b : FieldValue N) (o : Ordering) : Prop where
  lt : a.lt b = (o == .lt)
  eq : a.eq b = (o == .eq)
  gt : a.gt b = (o == .gt)
  gte : a.gte b = (o != .lt)
  lte : a.lte b = (o != .gt)

/-- `gte` and `gt` determine the rest once `eq` is one of the three cases. -/
theorem comparesAs_of_gte_gt {a b : FieldValue N} {o : Ordering} (heq : a.eq b = (o == .eq))
    (hgt : a.gt b = (o == .gt)) (hgte : a.gte b = (o != .lt)) : ComparesAs a b o where
  lt := by rw [lt, hgte]; cases o <;> rfl
  eq := heq
  gt := hgt
  gte := hgte
  lte := by rw [lte, hgt]; cases o <;> rfl

/-- Exactly one of `lt`, `eq` and `gt` holds. -/
theorem exactly_one_of_comparesAs {a b : FieldValue N} {o : Ordering} (h : ComparesAs a b o) :
    [a.lt b, a.eq b, a.gt b].count true = 1 := by
  rw [h.lt, h.eq, h.gt]
  cases o <;> rfl

/-- Two pairs that compare as swapped orderings have converse comparisons. -/
theorem comparesAs_swap {a b : FieldValue N} {o : Ordering} (h : ComparesAs a b o)
    (h' : ComparesAs b a o.swap) :
    a.gt b = b.lt a ∧ a.gte b = b.lte a ∧ a.eq b = b.eq a := by
  rw [h.gt, h.gte, h.eq, h'.lt, h'.lte, h'.eq]
  cases o <;> exact ⟨rfl, rfl, rfl⟩

/-- Comparisons that are the order of some `x` and `y` compare as
`compare x y`. -/
theorem comparesAs_of_order {α : Type} [LinearOrder α] {a b : FieldValue N} (x y : α)
    (heq : a.eq b = true ↔ x = y) (hgt : a.gt b = true ↔ y < x)
    (hgte : a.gte b = true ↔ y ≤ x) : ComparesAs a b (compare x y) := by
  rcases lt_trichotomy x y with h | rfl | h
  · rw [compare_lt_iff_lt.mpr h]
    apply comparesAs_of_gte_gt <;> rw [Bool.eq_iff_iff]
    · simpa [heq] using h.ne
    · simpa [hgt] using h.le
    · simpa [hgte] using h
  · rw [compare_eq_iff_eq.mpr rfl]
    apply comparesAs_of_gte_gt <;> rw [Bool.eq_iff_iff] <;> simp [heq, hgt, hgte]
  · rw [compare_gt_iff_gt.mpr h]
    apply comparesAs_of_gte_gt <;> rw [Bool.eq_iff_iff]
    · simpa [heq] using h.ne'
    · simpa [hgt] using h
    · simpa [hgte] using h.le

section Integers

variable {a b : FieldValue N} {x y : Int}

/-- Integers of a common range compare as integers, whatever their types. -/
theorem comparesAs_of_intValue? (ha : a.intValue? = some x) (hb : b.intValue? = some y)
    (hxy : CommonRange x y) : ComparesAs a b (compare x y) :=
  comparesAs_of_order x y (by rw [eq_of_intValue? ha hb hxy, decide_eq_true_iff])
    (by rw [gt_of_intValue? ha hb hxy, decide_eq_true_iff])
    (by rw [gte_of_intValue? ha hb hxy, decide_eq_true_iff])

theorem CommonRange.symm (h : CommonRange x y) : CommonRange y x := by
  unfold CommonRange at *
  tauto

end Integers

/-- Strings compare as the derived `Ord` orders them, lexicographically. -/
theorem comparesAs_string (s t : List Char) :
    ComparesAs (string s : FieldValue N) (string t) ((string s : FieldValue N).cmp (string t)) := by
  have hcmp : (string s : FieldValue N).cmp (string t) = @compare _ List.instLinearOrder.toOrd s t := by
    rw [cmp, LinearOrder.compare_eq_compareOfLessAndEq]
    congr
  rw [hcmp]
  exact comparesAs_of_order s t
    (by rw [eq_of_isStringOrBool (.inl (isStringOrBool_string (N := N) s)), decide_eq_true_iff, string.injEq])
    (by rw [gt_string, decide_eq_true_iff])
    (by rw [gte_string, decide_eq_true_iff])

/-- Two strings the other way round compare as the swapped ordering. -/
theorem cmp_string_swap (s t : List Char) :
    (string t : FieldValue N).cmp (string s) = ((string s : FieldValue N).cmp (string t)).swap := by
  simp only [cmp]
  unfold compareOfLessAndEq
  rcases lt_trichotomy s t with h | rfl | h
  · simp [h, lt_asymm h, h.ne']
  · simp
  · simp [h, lt_asymm h, h.ne']

/-- On two integers of a common range, whatever their types, and on two
strings, the comparisons are those of a total order: exactly one of `lt`,
`eq` and `gt` holds, `gt` and `gte` are `lt` and `lte` the other way round,
and `eq` is symmetric. -/
theorem comparisons_consistent {a b : FieldValue N}
    (hab : (∃ x y, a.intValue? = some x ∧ b.intValue? = some y ∧ CommonRange x y) ∨
      ∃ s t, a = string s ∧ b = string t) :
    [a.lt b, a.eq b, a.gt b].count true = 1 ∧
      a.gt b = b.lt a ∧ a.gte b = b.lte a ∧ a.eq b = b.eq a := by
  obtain ⟨o, h, h'⟩ : ∃ o, ComparesAs a b o ∧ ComparesAs b a o.swap := by
    rcases hab with ⟨x, y, ha, hb, hxy⟩ | ⟨s, t, rfl, rfl⟩
    · refine ⟨compare x y, comparesAs_of_intValue? ha hb hxy, ?_⟩
      rw [← Std.OrientedOrd.eq_swap]
      exact comparesAs_of_intValue? hb ha hxy.symm
    · refine ⟨_, comparesAs_string s t, ?_⟩
      rw [← cmp_string_swap]
      exact comparesAs_string t s
  exact ⟨exactly_one_of_comparesAs h, comparesAs_swap h h'⟩

/-- A `u64` against an `i32` below zero. -/
theorem comparisons_consistent_u64_i32 :
    (∃ x y, (u64 ⟨3, by decide⟩ : FieldValue Numerics.exactRat).intValue? = some x ∧
        (i32 ⟨-1, by decide⟩ : FieldValue Numerics.exactRat).intValue? = some y ∧ CommonRange x y) ∧
      [(u64 ⟨3, by decide⟩ : FieldValue Numerics.exactRat).lt (i32 ⟨-1, by decide⟩),
        (u64 ⟨3, by decide⟩ : FieldValue Numerics.exactRat).eq (i32 ⟨-1, by decide⟩),
        (u64 ⟨3, by decide⟩ : FieldValue Numerics.exactRat).gt (i32 ⟨-1, by decide⟩)].count true = 1 ∧
      (u64 ⟨3, by decide⟩ : FieldValue Numerics.exactRat).gt (i32 ⟨-1, by decide⟩) =
        (i32 ⟨-1, by decide⟩ : FieldValue Numerics.exactRat).lt (u64 ⟨3, by decide⟩) ∧
      (u64 ⟨3, by decide⟩ : FieldValue Numerics.exactRat).gte (i32 ⟨-1, by decide⟩) =
        (i32 ⟨-1, by decide⟩ : FieldValue Numerics.exactRat).lte (u64 ⟨3, by decide⟩) ∧
      (u64 ⟨3, by decide⟩ : FieldValue Numerics.exactRat).eq (i32 ⟨-1, by decide⟩) =
        (i32 ⟨-1, by decide⟩ : FieldValue Numerics.exactRat).eq (u64 ⟨3, by decide⟩) := by
  have hab : ∃ x y, (u64 ⟨3, by decide⟩ : FieldValue Numerics.exactRat).intValue? = some x ∧
      (i32 ⟨-1, by decide⟩ : FieldValue Numerics.exactRat).intValue? = some y ∧ CommonRange x y :=
    ⟨3, -1, rfl, rfl, .inr ⟨by decide, by decide⟩⟩
  exact ⟨hab, comparisons_consistent (.inl hab)⟩

/-- `true.lt(false)` and `false.lt(true)` both hold, while `true.gt(false)`
does not. -/
theorem bool_lt_both_ways :
    (bool true : FieldValue N).lt (bool false) = true ∧
      (bool false : FieldValue N).lt (bool true) = true ∧
      (bool true : FieldValue N).gt (bool false) = false := by
  simp [lt, gte_bool, gt_bool]

end FieldValue

end TreeMan
