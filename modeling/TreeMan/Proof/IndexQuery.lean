import Mathlib
import TreeMan.Impl.IndexField

/-!
# What the queries of a built field index return

For an index built over `items` with `extractor`, each query answers a set
of rows, as `u32` positions; `RowsWhere items e P b` says that `b` holds
exactly the rows whose key satisfies `P`. Below `2³²` rows:

* `valueEq`, `valueNotEq`, `valueIn`, `valueNotIn` answer exactly
  (`rowsWhere_valueEq`, ...; `valueEq` fails exactly when no row has the key);
* `valueGt` and `valueLte` answer exactly (`rowsWhere_valueGt`,
  `rowsWhere_valueLte`): their binary search stops past the run of the
  threshold;
* `valueGte`, `valueLt` and the two range queries answer exactly when no
  other row shares the key of their threshold (`rowsWhere_valueGte`, ...);
  with two rows of that key, `valueGte` misses one of them and `valueLt`
  returns one (`valueGte_misses_duplicate`, `valueLt_returns_duplicate`),
  because the search stops on the last row of the run.

Over at least one row and below `2³²` rows, the built index represents them
(`build_represents`): its keys are the rows' keys, the bitmap of each key
holds its rows, the sorted values list each row with its key in key order,
and the counts are the rows' and the distinct keys'. Over none, `build` is
the default index, which has no sorted values.
-/

namespace TreeMan.IndexField

variable {V : Type} [LinearOrder V] {α : Type}

/-- `values` of `build`: each row with its key. -/
def rowKeys (items : List α) (e : α → V) : List (Nat × V) :=
  items.zipIdx.map fun p => (p.2, e p.1)

/-- `values_indices` of `build`: the rows of each key, in order. -/
def keyRows (items : List α) (e : α → V) : SortedMap V (List Nat) :=
  (rowKeys items e).foldl (fun m p => m.push p.2 p.1) SortedMap.empty

/-- `b` holds exactly the rows, as `u32`, whose key satisfies `P`. -/
def RowsWhere (items : List α) (e : α → V) (P : V → Prop) (b : RoaringBitmap) : Prop :=
  ∀ x, x ∈ b ↔ ∃ i, ∃ h : i < items.length, P (e items[i]) ∧ asU32 i = x

section Build

variable {items : List α} {e : α → V}

omit [LinearOrder V] in
theorem mem_rowKeys {i : Nat} {k : V} :
    (i, k) ∈ rowKeys items e ↔ ∃ h : i < items.length, e items[i] = k := by
  simp only [rowKeys, List.mem_map, Prod.mk.injEq]
  constructor
  · rintro ⟨⟨x, j⟩, hx, rfl, rfl⟩
    obtain ⟨h, hx⟩ := List.getElem?_eq_some_iff.mp (List.mem_zipIdx_iff_getElem?.mp hx)
    exact ⟨h, by rw [hx]⟩
  · rintro ⟨h, rfl⟩
    exact ⟨(items[i], i), List.mem_zipIdx_iff_getElem?.mpr (List.getElem?_eq_getElem h), rfl, rfl⟩

theorem build_of_ne_nil (h : items ≠ []) :
    build items e = ⟨(keyRows items e).mapValues
        (fun indices => BitIndex.mk (bitmapOfIndices indices) items.length), items.length,
      (keyRows items e).entries.length, some (((rowKeys items e).map fun p => (p.2, p.1)).insertionSort keyLe), fun l hl => by
        cases hl
        exact List.pairwise_insertionSort keyLe _⟩ := by
  unfold build
  rw [if_neg (by simpa using h)]
  rfl

theorem build_size : (build items e).size = items.length := by
  by_cases h : items = []
  · subst h
    rfl
  · rw [build_of_ne_nil h]

/-- The pairs `build` sorts, in sorted order. -/
def sortedPairs (items : List α) (e : α → V) : List (V × Nat) :=
  ((rowKeys items e).map fun p => (p.2, p.1)).insertionSort keyLe

theorem sortedValues_build (h : items ≠ []) :
    (build items e).sortedValues = some (sortedPairs items e) := by
  rw [build_of_ne_nil h]
  rfl

/-- Over no rows `build` returns `Default::default`, which has no pairs. -/
theorem sortedValues_build_no_rows : (build ([] : List U64) id).sortedValues = none := rfl

theorem sortedPairs_sorted : (sortedPairs items e).Pairwise keyLe :=
  List.pairwise_insertionSort keyLe _

theorem mem_sortedPairs {k : V} {i : Nat} :
    (k, i) ∈ sortedPairs items e ↔ ∃ h : i < items.length, e items[i] = k := by
  rw [sortedPairs, List.mem_insertionSort, ← mem_rowKeys]
  simp

/-- The rows of a sublist of the sorted pairs, as a bitmap: a row is in it
when its pair passes the filter. -/
theorem rowsWhere_filter_sortedPairs (f : V → Bool) :
    RowsWhere items e (fun k => f k = true)
      (bitmapOfIndices (((sortedPairs items e).filter fun p => f p.1).map (·.2))) := by
  intro x
  simp only [mem_bitmapOfIndices, List.mem_map, List.mem_filter]
  constructor
  · rintro ⟨_, ⟨⟨k, i⟩, ⟨hm, hp⟩, rfl⟩, rfl⟩
    obtain ⟨h, rfl⟩ := mem_sortedPairs.mp hm
    exact ⟨i, h, hp, rfl⟩
  · rintro ⟨i, h, hp, rfl⟩
    exact ⟨i, ⟨(e items[i], i), ⟨mem_sortedPairs.mpr ⟨h, rfl⟩, hp⟩, rfl⟩, rfl⟩

/-- The sorted pairs count keys as the items do. -/
theorem countP_sortedPairs (f : V → Bool) :
    (sortedPairs items e).countP (fun p => f p.1) = (items.map e).countP f := by
  rw [sortedPairs, (List.perm_insertionSort keyLe _).countP_eq, List.countP_map, rowKeys,
    List.countP_map, List.countP_map]
  conv_rhs => rw [← List.zipIdx_map_fst 0 items, List.countP_map]
  rfl

omit [LinearOrder V] in
theorem RowsWhere.congr {P Q : V → Prop} {b : RoaringBitmap} (h : ∀ k, P k ↔ Q k)
    (hb : RowsWhere items e P b) : RowsWhere items e Q b := fun x => by
  simp only [hb x, h]

omit [LinearOrder V] in
/-- Over no rows, the empty bitmap answers every predicate. -/
theorem rowsWhere_nil (P : V → Prop) : RowsWhere ([] : List α) e P SortedSet.empty := fun x => by
  simp

section Rows

variable (hn : items.length < 2 ^ 32) {P : V → Prop} {b : RoaringBitmap}
include hn

omit [LinearOrder V] in
/-- Below `2³²` rows, a bitmap that answers `P` holds row `i` exactly when
`P` holds of its key. -/
theorem RowsWhere.mem_row (hb : RowsWhere items e P b) {i : Nat} (hi : i < items.length) :
    i ∈ b ↔ P (e items[i]) := by
  rw [hb i]
  constructor
  · rintro ⟨j, hj, hp, hji⟩
    rw [asU32_of_lt (by omega)] at hji
    subst hji
    exact hp
  · intro hp
    exact ⟨i, hi, hp, asU32_of_lt (by omega)⟩

omit [LinearOrder V] in
/-- Below `2³²` rows, a bitmap that answers a predicate holds rows only. -/
theorem RowsWhere.lt_length (hb : RowsWhere items e P b) {x : Nat} (hx : x ∈ b) :
    x < items.length := by
  obtain ⟨i, hi, -, rfl⟩ := (hb x).mp hx
  rw [asU32_of_lt (by omega)]
  exact hi

omit [LinearOrder V] in
/-- Below `2³²` rows, a bitmap of rows that holds each row exactly when `P`
holds of its key answers `P`. -/
theorem rowsWhere_of_rows (hlt : ∀ x ∈ b, x < items.length)
    (hrow : ∀ i (hi : i < items.length), i ∈ b ↔ P (e items[i])) : RowsWhere items e P b :=
  fun x => by
    constructor
    · intro hx
      have hxn := hlt x hx
      exact ⟨x, hxn, (hrow x hxn).mp hx, asU32_of_lt (by omega)⟩
    · rintro ⟨i, hi, hp, rfl⟩
      rw [asU32_of_lt (by omega)]
      exact (hrow i hi).mpr hp

end Rows

end Build

/-! ### Point queries -/

section Point

variable {items : List α} {e : α → V}

/-- The rows of a key in `values_indices`: those with that key, in order. -/
theorem getD_keyRows (k : V) :
    (keyRows items e).getD k [] = ((rowKeys items e).filter fun p => p.2 = k).map (·.1) := by
  have hget := SortedMap.getD_foldl_push (fun p : Nat × V => p.2) (fun p => p.1) SortedMap.empty
    (rowKeys items e) k
  simpa only [keyRows, SortedMap.getD, SortedMap.find?_empty, Option.getD_none,
    List.nil_append] using hget

/-- The keys of `values_indices` are the keys of the rows. -/
theorem find?_keyRows_isSome (k : V) :
    ((keyRows items e).find? k).isSome ↔ ∃ i, ∃ h : i < items.length, e items[i] = k := by
  rw [keyRows, SortedMap.find?_foldl_push_isSome]
  simp only [SortedMap.find?_empty, Option.isSome_none, Bool.false_eq_true, false_or]
  constructor
  · rintro ⟨⟨i, k'⟩, hm, rfl⟩
    obtain ⟨h, rfl⟩ := mem_rowKeys.mp hm
    exact ⟨i, h, rfl⟩
  · rintro ⟨i, h, rfl⟩
    exact ⟨(i, e items[i]), mem_rowKeys.mpr ⟨h, rfl⟩, rfl⟩

theorem getBitmap_build_eq_some {k : V} {b : RoaringBitmap}
    (hb : (build items e).getBitmap k = some b) :
    b = bitmapOfIndices (((rowKeys items e).filter fun p => p.2 = k).map (·.1)) := by
  have hne : items ≠ [] := by
    rintro rfl
    simp [build, default, getBitmap] at hb
  rw [getBitmap, build_of_ne_nil hne, SortedMap.find?_mapValues] at hb
  simp only [Option.map_map, Option.map_eq_some_iff, Function.comp] at hb
  obtain ⟨l, hl, rfl⟩ := hb
  have hget : (keyRows items e).getD k [] = _ := getD_keyRows k
  rw [SortedMap.getD, hl, Option.getD_some] at hget
  rw [hget]

theorem getBitmap_build_isSome {k : V} :
    ((build items e).getBitmap k).isSome ↔ ∃ i, ∃ h : i < items.length, e items[i] = k := by
  by_cases hne : items = []
  · subst hne
    simp [build, default, getBitmap]
  · rw [getBitmap, build_of_ne_nil hne, SortedMap.find?_mapValues, Option.isSome_map,
      Option.isSome_map, find?_keyRows_isSome]

/-- The bitmap of a key holds the rows with that key. -/
theorem rowsWhere_getBitmap_build {k : V} {b : RoaringBitmap}
    (hb : (build items e).getBitmap k = some b) : RowsWhere items e (· = k) b := by
  rw [getBitmap_build_eq_some hb]
  intro x
  simp only [mem_bitmapOfIndices, List.mem_map, List.mem_filter, decide_eq_true_eq]
  constructor
  · rintro ⟨_, ⟨⟨i, k'⟩, ⟨hm, rfl⟩, rfl⟩, rfl⟩
    obtain ⟨h, rfl⟩ := mem_rowKeys.mp hm
    exact ⟨i, h, rfl, rfl⟩
  · rintro ⟨i, h, rfl, rfl⟩
    exact ⟨i, ⟨(i, e items[i]), ⟨mem_rowKeys.mpr ⟨h, rfl⟩, rfl⟩, rfl⟩, rfl⟩

/-- `valueEq` answers the rows of the key, and fails when there are none. -/
theorem rowsWhere_valueEq {k : V} {b : RoaringBitmap} (hb : (build items e).valueEq k = some b) :
    RowsWhere items e (· = k) b :=
  rowsWhere_getBitmap_build hb

theorem valueEq_build_eq_none {k : V} :
    (build items e).valueEq k = none ↔ ∀ i (h : i < items.length), e items[i] ≠ k := by
  rw [valueEq, ← Option.not_isSome_iff_eq_none, getBitmap_build_isSome]
  simp

variable (hn : items.length < 2 ^ 32)
include hn

/-- Below `2³²` rows, the full bitmap holds a row exactly when it is one. -/
theorem mem_fullBitmap_build {x : Nat} :
    x ∈ fullBitmap items.length ↔ ∃ i, ∃ _ : i < items.length, asU32 i = x := by
  rw [mem_fullBitmap, asU32_of_lt hn]
  constructor
  · intro hx
    exact ⟨x, hx, asU32_of_lt (by omega)⟩
  · rintro ⟨i, h, rfl⟩
    rwa [asU32_of_lt (by omega)]

/-- Below `2³²` rows two rows are one `u32` only when they are one row. -/
theorem asU32_inj {i j : Nat} (hi : i < items.length) (hj : j < items.length)
    (h : asU32 i = asU32 j) : i = j := by
  rwa [asU32_of_lt (by omega), asU32_of_lt (by omega)] at h

theorem rowsWhere_valueNotEq (k : V) {b : RoaringBitmap} (hb : (build items e).valueNotEq k = some b) :
    RowsWhere items e (· ≠ k) b := by
  simp only [valueNotEq, andNotBitmapOf, build_size, Option.some.injEq] at hb
  subst hb
  intro x
  split
  · rename_i bk hbk
    have hk := rowsWhere_getBitmap_build hbk
    rw [SortedSet.mem_diff, mem_fullBitmap_build hn, hk]
    constructor
    · rintro ⟨⟨i, h, rfl⟩, hnot⟩
      exact ⟨i, h, fun he => hnot ⟨i, h, he, rfl⟩, rfl⟩
    · rintro ⟨i, h, hne, rfl⟩
      refine ⟨⟨i, h, rfl⟩, fun ⟨j, hj, he, hji⟩ => hne ?_⟩
      obtain rfl := asU32_inj hn hj h hji
      exact he
  · rename_i hnone
    have := valueEq_build_eq_none.mp hnone
    rw [mem_fullBitmap_build hn]
    exact ⟨fun ⟨i, h, hx⟩ => ⟨i, h, this i h, hx⟩, fun ⟨i, h, _, hx⟩ => ⟨i, h, hx⟩⟩

end Point

/-! ### The representation `build` establishes -/

section Representation

/-- What an index over `items` holds: the rows' keys, the rows of each key
as a bitmap over all the rows, the rows' pairs sorted by key, and their
counts. -/
structure Represents (index : IndexField V) (items : List α) (e : α → V) : Prop where
  keys : ∀ k, (index.values.find? k).isSome ↔ k ∈ items.map e
  bitmaps : ∀ k b, index.values.find? k = some b →
    b.totalSize = items.length ∧ ∀ i, i ∈ b.bitmap ↔ ∃ h : i < items.length, e items[i] = k
  sorted_values : ∃ l, index.sortedValues = some l ∧
    l.Perm (items.zipIdx.map fun p => (e p.1, p.2)) ∧ l.Pairwise (fun a b => a.1 ≤ b.1)
  unique_count : index.uniqueCount = (items.map e).dedup.length
  size : index.size = items.length

variable {items : List α} {e : α → V}

omit [LinearOrder V] in
theorem mem_map_iff_exists_getElem {k : V} :
    k ∈ items.map e ↔ ∃ i, ∃ h : i < items.length, e items[i] = k := by
  rw [List.mem_map]
  constructor
  · rintro ⟨x, hx, rfl⟩
    obtain ⟨i, h, rfl⟩ := List.mem_iff_getElem.mp hx
    exact ⟨i, h, rfl⟩
  · rintro ⟨i, h, rfl⟩
    exact ⟨items[i], List.getElem_mem h, rfl⟩

/-- `unique_count` counts the distinct keys of the rows. -/
theorem length_keys_keyRows : (keyRows items e).entries.length = (items.map e).dedup.length := by
  have hperm : ((keyRows items e).entries.map (·.1)).Perm (items.map e).dedup := by
    have hsorted : ((keyRows items e).entries.map (·.1)).Pairwise (· < ·) :=
      SortedMap.keys_sorted _
    refine (List.perm_ext_iff_of_nodup (hsorted.imp ne_of_lt) (List.nodup_dedup _)).mpr fun k => ?_
    rw [List.mem_dedup]
    exact SortedMap.mem_keys_iff_find?.trans
      ((find?_keyRows_isSome k).trans mem_map_iff_exists_getElem.symm)
  rw [← hperm.length_eq, List.length_map]

/-- Over fewer than `2³²` rows, and at least one, `build` makes an index
that represents them. -/
theorem build_represents (hne : items ≠ []) (hn : items.length < 2 ^ 32) :
    Represents (build items e) items e where
  keys k := by
    rw [mem_map_iff_exists_getElem, ← getBitmap_build_isSome, getBitmap, Option.isSome_map]
  bitmaps k b hb := by
    have hbit : (build items e).getBitmap k = some b.bitmap := by rw [getBitmap, hb]; rfl
    have hrows := rowsWhere_getBitmap_build hbit
    refine ⟨?_, fun i => ⟨fun hi => ?_, fun ⟨h, hk⟩ => (hrows.mem_row hn h).mpr hk⟩⟩
    · rw [build_of_ne_nil hne, SortedMap.find?_mapValues, Option.map_eq_some_iff] at hb
      obtain ⟨_, -, rfl⟩ := hb
      rfl
    · have h := hrows.lt_length hn hi
      exact ⟨h, (hrows.mem_row hn h).mp hi⟩
  sorted_values := by
    refine ⟨sortedPairs items e, sortedValues_build hne, ?_, sortedPairs_sorted⟩
    rw [sortedPairs, rowKeys, List.map_map]
    exact List.perm_insertionSort keyLe _
  unique_count := by
    rw [build_of_ne_nil hne]
    exact length_keys_keyRows
  size := build_size

theorem build_represents_two_rows :
    Represents (build [(⟨5, by decide⟩ : U64), ⟨7, by decide⟩] id) [⟨5, by decide⟩, ⟨7, by decide⟩] id :=
  build_represents (by decide) (by decide)

end Representation

/-! ### Lists of values -/

section Lists

variable (self : IndexField V)

theorem mem_foldl_orBitmapOf (ks : List V) (r : RoaringBitmap) (x : Nat) :
    x ∈ ks.foldl self.orBitmapOf r ↔
      x ∈ r ∨ ∃ k ∈ ks, ∃ b, self.getBitmap k = some b ∧ x ∈ b := by
  induction ks generalizing r with
  | nil => simp
  | cons k ks ih =>
    rw [List.foldl_cons, ih, orBitmapOf]
    split
    · rename_i b hb
      simp only [SortedSet.mem_union, List.mem_cons, exists_eq_or_imp, hb, Option.some.injEq,
        exists_eq_left']
      tauto
    · rename_i hb
      simp [hb]

theorem mem_foldl_andNotBitmapOf (ks : List V) (r : RoaringBitmap) (x : Nat) :
    x ∈ ks.foldl self.andNotBitmapOf r ↔
      x ∈ r ∧ ¬∃ k ∈ ks, ∃ b, self.getBitmap k = some b ∧ x ∈ b := by
  induction ks generalizing r with
  | nil => simp
  | cons k ks ih =>
    rw [List.foldl_cons, ih, andNotBitmapOf]
    split
    · rename_i b hb
      simp only [SortedSet.mem_diff, List.mem_cons, exists_eq_or_imp, hb, Option.some.injEq,
        exists_eq_left', not_or, and_assoc]
    · rename_i hb
      simp [hb]

end Lists

section ListQueries

variable {items : List α} {e : α → V}

/-- A row is in the bitmap of some key of `ks` exactly when its key is in `ks`. -/
theorem exists_getBitmap_build_iff (ks : List V) (x : Nat) :
    (∃ k ∈ ks, ∃ b, (build items e).getBitmap k = some b ∧ x ∈ b) ↔
      ∃ i, ∃ h : i < items.length, e items[i] ∈ ks ∧ asU32 i = x := by
  constructor
  · rintro ⟨k, hk, b, hb, hx⟩
    obtain ⟨i, h, rfl, rfl⟩ := (rowsWhere_getBitmap_build hb x).mp hx
    exact ⟨i, h, hk, rfl⟩
  · rintro ⟨i, h, hk, rfl⟩
    obtain ⟨b, hb⟩ := Option.isSome_iff_exists.mp
      (getBitmap_build_isSome.mpr ⟨i, h, rfl⟩ : ((build items e).getBitmap (e items[i])).isSome)
    exact ⟨_, hk, b, hb, (rowsWhere_getBitmap_build hb _).mpr ⟨i, h, rfl, rfl⟩⟩

theorem rowsWhere_valueIn (ks : List V) {b : RoaringBitmap}
    (hb : (build items e).valueIn ks = some b) : RowsWhere items e (· ∈ ks) b := by
  simp only [valueIn, Option.some.injEq] at hb
  subst hb
  intro x
  rw [mem_foldl_orBitmapOf, exists_getBitmap_build_iff]
  simp

theorem rowsWhere_valueNotIn (hn : items.length < 2 ^ 32) (ks : List V) {b : RoaringBitmap}
    (hb : (build items e).valueNotIn ks = some b) : RowsWhere items e (· ∉ ks) b := by
  simp only [valueNotIn, build_size, Option.some.injEq] at hb
  subst hb
  intro x
  rw [mem_foldl_andNotBitmapOf, exists_getBitmap_build_iff, mem_fullBitmap_build hn]
  constructor
  · rintro ⟨⟨i, h, rfl⟩, hnot⟩
    exact ⟨i, h, fun hk => hnot ⟨i, h, hk, rfl⟩, rfl⟩
  · rintro ⟨i, h, hk, rfl⟩
    refine ⟨⟨i, h, rfl⟩, fun ⟨j, hj, hkj, hji⟩ => hk ?_⟩
    obtain rfl := asU32_inj hn hj h hji
    exact hkj

end ListQueries

/-! ### Range queries -/

section Positions

variable (l : List (V × Nat)) (t : V)

/-- The number of pairs whose key is below `t`. -/
def countBelow : Nat := l.countP fun p => p.1 < t

/-- The number of pairs whose key is at most `t`. -/
def countUpTo : Nat := l.countP fun p => p.1 ≤ t

/-- Where the code starts an `Included` range and ends an `Excluded` one:
the position of the last pair with key `t` when there is one, else the
insertion point of `t`. -/
def runLast : Nat := if countBelow l t < countUpTo l t then countUpTo l t - 1 else countBelow l t

variable {l} (hl : l.Pairwise keyLe)
include hl

theorem searchKey_eq :
    searchKey l t = if countBelow l t < countUpTo l t then .ok (countUpTo l t - 1)
      else .error (countBelow l t) :=
  BinarySearch.binarySearchBy_compare Prod.fst t l hl

theorem prefix_below : l.Pairwise (fun a b => decide (b.1 < t) → decide (a.1 < t)) :=
  BinarySearch.pairwise_prefix_of_sorted hl fun _ _ h h' => lt_of_le_of_lt h h'

theorem prefix_upTo : l.Pairwise (fun a b => decide (b.1 ≤ t) → decide (a.1 ≤ t)) :=
  BinarySearch.pairwise_prefix_of_sorted hl fun _ _ h h' => le_trans h h'

/-- The `while` loop of an `Included` end stops at once on the last pair of
the run: the pair after it has a key above `t`. -/
theorem lastOfRun_runLast (hrun : countBelow l t < countUpTo l t) (fuel : Nat) :
    lastOfRun l t (fuel + 1) (countUpTo l t - 1) = countUpTo l t - 1 := by
  have hpos : 0 < countUpTo l t := by omega
  simp only [lastOfRun, Nat.sub_add_cancel hpos]
  split
  · rename_i p hp
    obtain ⟨hlen, rfl⟩ := List.getElem?_eq_some_iff.mp hp
    have hnot := (BinarySearch.getElem_iff_lt_countP (prefix_upTo t hl) _ hlen).not.mpr
      (lt_irrefl _)
    have hne : l[countUpTo l t].1 ≠ t := fun h => hnot (by simp [h])
    simp [hne]
  · rfl

theorem startIdx_excluded : startIdx l (.excluded t) = countUpTo l t := by
  simp only [startIdx, searchKey_eq t hl]
  split_ifs with h
  · have : 0 < countUpTo l t := by omega
    dsimp only
    omega
  · have : countBelow l t ≤ countUpTo l t :=
      List.countP_mono_left fun x _ hx => by simpa using le_of_lt (by simpa using hx)
    dsimp only
    omega

theorem endIdx_included : endIdx l (.included t) = countUpTo l t := by
  simp only [endIdx, searchKey_eq t hl]
  split_ifs with h
  · have hpos : 0 < countUpTo l t := by omega
    have hlen : 0 < l.length := lt_of_lt_of_le hpos List.countP_le_length
    obtain ⟨fuel, hfuel⟩ := Nat.exists_eq_add_of_lt hlen
    dsimp only
    rw [hfuel, Nat.zero_add, lastOfRun_runLast t hl h fuel]
    omega
  · have : countBelow l t ≤ countUpTo l t :=
      List.countP_mono_left fun x _ hx => by simpa using le_of_lt (by simpa using hx)
    dsimp only
    omega

theorem startIdx_included : startIdx l (.included t) = runLast l t := by
  simp only [startIdx, searchKey_eq t hl, runLast]
  split_ifs <;> rfl

theorem endIdx_excluded : endIdx l (.excluded t) = runLast l t := by
  simp only [endIdx, searchKey_eq t hl, runLast]
  split_ifs <;> rfl

omit hl in
theorem countUpTo_eq : countUpTo l t = countBelow l t + l.countP (fun p => p.1 = t) := by
  induction l with
  | nil => rfl
  | cons p rest ih =>
    simp only [countUpTo, countBelow, List.countP_cons] at ih ⊢
    rw [ih]
    rcases lt_trichotomy p.1 t with h | h | h
    · simp [h, le_of_lt h, ne_of_lt h]
      omega
    · simp [h]
      omega
    · simp [not_le.mpr h, not_lt.mpr (le_of_lt h), ne_of_gt h]

omit hl in
/-- Without a second pair of key `t`, the run of `t` starts where it ends. -/
theorem runLast_of_countP_le_one (h : l.countP (fun p => p.1 = t) ≤ 1) :
    runLast l t = countBelow l t := by
  rw [runLast, countUpTo_eq]
  split_ifs <;> omega

end Positions

section RangeBuild

variable {items : List α} {e : α → V}

/-- When both ends of the fast path sit at the ends of prefixes cut by `p`
and `q`, the range query answers the pairs in the `q`-prefix and out of the
`p`-prefix. -/
theorem rowsWhere_valueRange {start stop : Bound V} {p q : V → Bool}
    (hp : ∀ a b, a ≤ b → p b → p a) (hq : ∀ a b, a ≤ b → q b → q a)
    (hs : startIdx (sortedPairs items e) start = (sortedPairs items e).countP (fun x => p x.1))
    (he : endIdx (sortedPairs items e) stop = (sortedPairs items e).countP (fun x => q x.1))
    {b : RoaringBitmap} (hb : (build items e).valueRange start stop = some b) :
    RowsWhere items e (fun k => q k = true ∧ p k = false) b := by
  by_cases hne : items = []
  · subst hne
    rw [show (build ([] : List α) e).valueRange start stop = some SortedSet.empty from rfl,
      Option.some.injEq] at hb
    subst hb
    exact rowsWhere_nil _
  have hsorted : (sortedPairs items e).Pairwise fun a b => a.1 ≤ b.1 := sortedPairs_sorted
  have hslice := BinarySearch.slice_countP_eq_filter
    (hsorted.imp fun hab hb => hp _ _ hab hb) (hsorted.imp fun hab hb => hq _ _ hab hb)
    (BinarySearch.nested_of_downClosed (fun (a b : V × Nat) (h : a.1 ≤ b.1) => hp a.1 b.1 h)
      (fun a b h => hq a.1 b.1 h) _)
  simp only [valueRange, valueRangeFast, sortedValues_build hne, hs, he, ge_iff_le] at hb
  have hb' : b = bitmapOfIndices
      (((sortedPairs items e).filter fun x => q x.1 && !p x.1).map (·.2)) := by
    rw [← hslice]
    split_ifs at hb ⊢ with h
    · simp only [Option.some.injEq] at hb
      rw [← hb]
      rfl
    · simpa using hb.symm
  subst hb'
  exact (rowsWhere_filter_sortedPairs (fun k => q k && !p k)).congr fun k => by simp

end RangeBuild

section RangeQueries

variable {items : List α} {e : α → V}

theorem downClosed_lt (t : V) (a b : V) (hab : a ≤ b) (h : decide (b < t) = true) :
    decide (a < t) = true := by
  simpa using lt_of_le_of_lt hab (by simpa using h)

theorem downClosed_le (t : V) (a b : V) (hab : a ≤ b) (h : decide (b ≤ t) = true) :
    decide (a ≤ t) = true := by
  simpa using le_trans hab (by simpa using h)

theorem downClosed_const (c : Bool) (a b : V) (_ : a ≤ b) (h : c = true) : c = true := h

theorem startIdx_unbounded (l : List (V × Nat)) :
    startIdx l .unbounded = l.countP (fun _ => false) := by
  simp [startIdx]

theorem endIdx_unbounded (l : List (V × Nat)) :
    endIdx l .unbounded = l.countP (fun _ => true) := by
  simp [endIdx]

/-- With at most one row of key `t`, the run of `t` in the sorted pairs
starts where it ends. -/
theorem runLast_sortedPairs {t : V} (hd : (items.map e).countP (· = t) ≤ 1) :
    runLast (sortedPairs items e) t = countBelow (sortedPairs items e) t := by
  apply runLast_of_countP_le_one
  rw [countP_sortedPairs (fun k => decide (k = t))]
  exact hd

/-- `value_gt` answers exactly: its binary search ends after the run of the
threshold. -/
theorem rowsWhere_valueGt (t : V) {b : RoaringBitmap} (hb : (build items e).valueGt t = some b) :
    RowsWhere items e (t < ·) b :=
  (rowsWhere_valueRange (downClosed_le t) (downClosed_const true)
    (startIdx_excluded t sortedPairs_sorted) (endIdx_unbounded _) hb).congr fun k => by simp

theorem rowsWhere_valueLte (t : V) {b : RoaringBitmap} (hb : (build items e).valueLte t = some b) :
    RowsWhere items e (· ≤ t) b :=
  (rowsWhere_valueRange (downClosed_const false) (downClosed_le t)
    (startIdx_unbounded _) (endIdx_included t sortedPairs_sorted) hb).congr fun k => by simp

/-- `value_gte` answers exactly when no two rows share the threshold. -/
theorem rowsWhere_valueGte (t : V) (hd : (items.map e).countP (· = t) ≤ 1) {b : RoaringBitmap}
    (hb : (build items e).valueGte t = some b) : RowsWhere items e (t ≤ ·) b :=
  (rowsWhere_valueRange (downClosed_lt t) (downClosed_const true)
    ((startIdx_included t sortedPairs_sorted).trans (runLast_sortedPairs hd))
    (endIdx_unbounded _) hb).congr fun k => by simp

theorem rowsWhere_valueLt (t : V) (hd : (items.map e).countP (· = t) ≤ 1) {b : RoaringBitmap}
    (hb : (build items e).valueLt t = some b) : RowsWhere items e (· < t) b :=
  (rowsWhere_valueRange (downClosed_const false) (downClosed_lt t)
    (startIdx_unbounded _) ((endIdx_excluded t sortedPairs_sorted).trans (runLast_sortedPairs hd))
    hb).congr fun k => by simp

theorem rowsWhere_valueRangeInclusive (s t : V) (hd : (items.map e).countP (· = s) ≤ 1)
    {b : RoaringBitmap} (hb : (build items e).valueRangeInclusive s t = some b) :
    RowsWhere items e (fun k => s ≤ k ∧ k ≤ t) b :=
  (rowsWhere_valueRange (downClosed_lt s) (downClosed_le t)
    ((startIdx_included s sortedPairs_sorted).trans (runLast_sortedPairs hd))
    (endIdx_included t sortedPairs_sorted) hb).congr fun k => by simp [and_comm]

/-! ### Repeated thresholds -/

omit [LinearOrder V] in
/-- Two positions that satisfy `p` count twice. -/
theorem two_le_countP {β : Type} {p : β → Bool} :
    ∀ {l : List β} {i j : Nat} (hi : i < l.length) (hj : j < l.length), i ≠ j →
      p l[i] = true → p l[j] = true → 2 ≤ l.countP p
  | [], _, _, hi, _, _, _, _ => by simp at hi
  | a :: rest, i, j, hi, hj, hij, hpi, hpj => by
    have hpos : ∀ k (hk : k < rest.length), p rest[k] = true → 1 ≤ rest.countP p :=
      fun k hk h => List.countP_pos_iff.mpr ⟨_, List.getElem_mem hk, h⟩
    rw [List.countP_cons]
    match i, j, hi, hj, hij, hpi, hpj with
    | 0, 0, _, _, hij, _, _ => exact absurd rfl hij
    | 0, j + 1, _, hj, _, hpi, hpj =>
      have := hpos j (by simpa using hj) hpj
      simp only [List.getElem_cons_zero] at hpi
      simp only [hpi, if_true]
      omega
    | i + 1, 0, hi, _, _, hpi, hpj =>
      have := hpos i (by simpa using hi) hpi
      simp only [List.getElem_cons_zero] at hpj
      simp only [hpj, if_true]
      omega
    | i + 1, j + 1, hi, hj, hij, hpi, hpj =>
      have := two_le_countP (l := rest) (by simpa using hi) (by simpa using hj)
        (fun h => hij (by rw [h])) hpi hpj
      omega

/-- Two rows of key `t` make a run of at least two pairs. -/
theorem countBelow_add_two_le {t : V} {i j : Nat} (hi : i < items.length) (hj : j < items.length)
    (hij : i ≠ j) (hki : e items[i] = t) (hkj : e items[j] = t) :
    countBelow (sortedPairs items e) t + 2 ≤ countUpTo (sortedPairs items e) t := by
  rw [countUpTo_eq, countP_sortedPairs (fun k => decide (k = t))]
  have := two_le_countP (p := fun k => decide (k = t)) (l := items.map e) (by simpa using hi)
    (by simpa using hj) hij (by simpa using hki) (by simpa using hkj)
  omega

/-- With two rows of key `t` the run of `t` is not empty, and both searches
stop on its last pair. -/
theorem runLast_sortedPairs_of_two {t : V} {i j : Nat} (hi : i < items.length)
    (hj : j < items.length) (hij : i ≠ j) (hki : e items[i] = t) (hkj : e items[j] = t) :
    runLast (sortedPairs items e) t = countUpTo (sortedPairs items e) t - 1 := by
  have hrun := countBelow_add_two_le hi hj hij hki hkj
  rw [runLast, if_pos (by omega)]

/-- A pair of the sorted pairs is a row with its key. -/
theorem row_of_mem_sortedPairs {p : V × Nat} (hp : p ∈ sortedPairs items e) :
    ∃ h : p.2 < items.length, e items[p.2] = p.1 :=
  mem_sortedPairs.mp (by simpa using hp)

/-- With two rows of key `t`, `value_gte t` answers the rows above `t` and
only the last pair of the run of `t`: a row of key `t` in the answer is the
one of that pair, so it misses one of the two rows. -/
theorem valueGte_misses_duplicate (hn : items.length < 2 ^ 32) {t : V} {i j : Nat}
    (hi : i < items.length) (hj : j < items.length) (hij : i ≠ j)
    (hki : e items[i] = t) (hkj : e items[j] = t) :
    ∃ b, (build items e).valueGte t = some b ∧ (asU32 i ∉ b ∨ asU32 j ∉ b) := by
  have hne : items ≠ [] := List.ne_nil_of_length_pos (by omega)
  have hsorted := (sortedPairs_sorted : (sortedPairs items e).Pairwise keyLe)
  have hrun := countBelow_add_two_le hi hj hij hki hkj
  have hup : countUpTo (sortedPairs items e) t ≤ (sortedPairs items e).length :=
    List.countP_le_length
  have hlast : countUpTo (sortedPairs items e) t - 1 < (sortedPairs items e).length := by omega
  have hs : startIdx (sortedPairs items e) (.included t) = countUpTo (sortedPairs items e) t - 1 :=
    (startIdx_included t hsorted).trans (runLast_sortedPairs_of_two hi hj hij hki hkj)
  refine ⟨bitmapOfIndices (((sortedPairs items e).drop
    (countUpTo (sortedPairs items e) t - 1)).map (·.2)), ?_, ?_⟩
  · simp only [valueGte, valueRange, valueRangeFast, sortedValues_build hne, hs, endIdx,
      ge_iff_le, List.take_length]
    rw [if_neg (by omega)]
  · have hrow : ∀ r (hr : r < items.length), e items[r] = t →
        asU32 r ∈ bitmapOfIndices (((sortedPairs items e).drop
          (countUpTo (sortedPairs items e) t - 1)).map (·.2)) →
        r = ((sortedPairs items e)[countUpTo (sortedPairs items e) t - 1]).2 := by
      intro r hr hkr hmem
      obtain ⟨_, ⟨p, hp, rfl⟩, hpr⟩ := by simpa only [mem_bitmapOfIndices, List.mem_map] using hmem
      obtain ⟨hp2, hkp⟩ := row_of_mem_sortedPairs (List.mem_of_mem_drop hp)
      obtain rfl := asU32_inj hn hp2 hr hpr
      have hdrop : (sortedPairs items e).drop (countUpTo (sortedPairs items e) t) =
          (sortedPairs items e).filter (fun x => !decide (x.1 ≤ t)) :=
        BinarySearch.drop_countP_eq_filter (prefix_upTo t hsorted)
      rw [List.drop_eq_getElem_cons hlast, Nat.sub_add_cancel (by omega), hdrop] at hp
      rcases List.mem_cons.mp hp with rfl | hp
      · rfl
      · simp only [List.mem_filter, Bool.not_eq_true', decide_eq_false_iff_not] at hp
        exact absurd (hkp.symm.trans hkr).le hp.2
    by_contra hboth
    simp only [not_or, not_not] at hboth
    exact hij ((hrow i hi hki hboth.1).trans (hrow j hj hkj hboth.2).symm)

/-- With two rows of key `t`, `value_lt t` answers every pair of the run of
`t` but its last, so it answers a row of key `t`: the first pair of the run,
which lies before the end. -/
theorem valueLt_returns_duplicate {t : V} {i j : Nat}
    (hi : i < items.length) (hj : j < items.length) (hij : i ≠ j)
    (hki : e items[i] = t) (hkj : e items[j] = t) :
    ∃ b, (build items e).valueLt t = some b ∧
      ∃ r, ∃ h : r < items.length, e items[r] = t ∧ asU32 r ∈ b := by
  have hne : items ≠ [] := List.ne_nil_of_length_pos (by omega)
  have hsorted := (sortedPairs_sorted : (sortedPairs items e).Pairwise keyLe)
  have hrun := countBelow_add_two_le hi hj hij hki hkj
  have hup : countUpTo (sortedPairs items e) t ≤ (sortedPairs items e).length :=
    List.countP_le_length
  have he : endIdx (sortedPairs items e) (.excluded t) = countUpTo (sortedPairs items e) t - 1 :=
    (endIdx_excluded t hsorted).trans (runLast_sortedPairs_of_two hi hj hij hki hkj)
  have hfirst : countBelow (sortedPairs items e) t < (sortedPairs items e).length := by omega
  set p := (sortedPairs items e)[countBelow (sortedPairs items e) t]
  have hnlt : ¬p.1 < t := by
    have := (BinarySearch.getElem_iff_lt_countP (prefix_below t hsorted) _ hfirst).not.mpr
      (lt_irrefl _)
    simpa using this
  have hle : p.1 ≤ t := by
    simpa using (BinarySearch.getElem_iff_lt_countP (prefix_upTo t hsorted) _ hfirst).mpr
      (by unfold countUpTo at hrun; omega)
  have hpt : p.1 = t := le_antisymm hle (not_lt.mp hnlt)
  obtain ⟨hp2, hkp⟩ := row_of_mem_sortedPairs (List.getElem_mem hfirst)
  refine ⟨bitmapOfIndices (((sortedPairs items e).take
    (countUpTo (sortedPairs items e) t - 1)).map (·.2)), ?_, p.2, hp2, hkp.trans hpt, ?_⟩
  · simp only [valueLt, valueRange, valueRangeFast, sortedValues_build hne, he, startIdx,
      ge_iff_le, List.drop_zero]
    rw [if_neg (by omega)]
  · simp only [mem_bitmapOfIndices, List.mem_map]
    exact ⟨p.2, ⟨p, List.mem_iff_getElem.mpr ⟨countBelow (sortedPairs items e) t,
      by simp; omega, by simp [p]⟩, rfl⟩, rfl⟩

omit [LinearOrder V] in
/-- A predicate that counts two holds at two positions: the converse of
`two_le_countP`. -/
theorem exists_two_of_two_le_countP {β : Type} {p : β → Bool} :
    ∀ {l : List β}, 2 ≤ l.countP p →
      ∃ i j, ∃ (hi : i < l.length) (hj : j < l.length), i ≠ j ∧ p l[i] = true ∧ p l[j] = true
  | [], h => by simp at h
  | a :: rest, h => by
    rw [List.countP_cons] at h
    by_cases ha : p a = true
    · rw [if_pos ha] at h
      obtain ⟨x, hx, hpx⟩ := List.countP_pos_iff.mp (by omega : 0 < rest.countP p)
      obtain ⟨k, hk, rfl⟩ := List.getElem_of_mem hx
      exact ⟨0, k + 1, by simp, by simpa using hk, by omega, ha, hpx⟩
    · rw [if_neg ha] at h
      obtain ⟨i, j, hi, hj, hij, hpi, hpj⟩ := exists_two_of_two_le_countP (l := rest) (by omega)
      exact ⟨i + 1, j + 1, by simpa using hi, by simpa using hj, by omega, hpi, hpj⟩

/-- A key held by more than one row is held by two rows. -/
theorem exists_two_rows {t : V} (hd : ¬(items.map e).countP (· = t) ≤ 1) :
    ∃ i j, ∃ (hi : i < items.length) (hj : j < items.length), i ≠ j ∧
      e items[i] = t ∧ e items[j] = t := by
  obtain ⟨i, j, hi, hj, hij, hpi, hpj⟩ :=
    exists_two_of_two_le_countP (p := fun k => decide (k = t)) (l := items.map e) (by omega)
  simp only [List.getElem_map, decide_eq_true_eq] at hpi hpj
  exact ⟨i, j, by simpa using hi, by simpa using hj, hij, hpi, hpj⟩

/-- Both paths of `value_range` answer a bitmap. -/
theorem valueRange_isSome (self : IndexField V) (start stop : Bound V) :
    (self.valueRange start stop).isSome := by
  unfold valueRange
  split <;> rfl

/-- Below `2³²` rows, `value_gt` and `value_lte` answer exactly the rows in
range, duplicates included; `value_gte t` and `value_lt t` answer exactly
the rows in range when at most one row has the key `t`, and only then: with
two rows of key `t`, `value_gte` misses one of them and `value_lt` answers
one. Every range query answers some bitmap. -/
theorem one_sided_range_queries_exact (hn : items.length < 2 ^ 32) (t : V) :
    (∃ b, (build items e).valueGt t = some b ∧ RowsWhere items e (t < ·) b) ∧
      (∃ b, (build items e).valueLte t = some b ∧ RowsWhere items e (· ≤ t) b) ∧
      ((∃ b, (build items e).valueGte t = some b ∧ RowsWhere items e (t ≤ ·) b) ↔
        (items.map e).countP (· = t) ≤ 1) ∧
      ((∃ b, (build items e).valueLt t = some b ∧ RowsWhere items e (· < t) b) ↔
        (items.map e).countP (· = t) ≤ 1) := by
  have hsome : ∀ start stop, ∃ b, (build items e).valueRange start stop = some b :=
    fun start stop => Option.isSome_iff_exists.mp (valueRange_isSome _ start stop)
  obtain ⟨bgt, hgt⟩ := hsome (.excluded t) .unbounded
  obtain ⟨blte, hlte⟩ := hsome .unbounded (.included t)
  obtain ⟨bgte, hgte⟩ := hsome (.included t) .unbounded
  obtain ⟨blt, hlt⟩ := hsome .unbounded (.excluded t)
  refine ⟨⟨bgt, hgt, rowsWhere_valueGt t hgt⟩, ⟨blte, hlte, rowsWhere_valueLte t hlte⟩,
    ⟨fun ⟨b, hb, hrows⟩ => ?_, fun hd => ⟨bgte, hgte, rowsWhere_valueGte t hd hgte⟩⟩,
    ⟨fun ⟨b, hb, hrows⟩ => ?_, fun hd => ⟨blt, hlt, rowsWhere_valueLt t hd hlt⟩⟩⟩
  · by_contra hd
    obtain ⟨i, j, hi, hj, hij, hki, hkj⟩ := exists_two_rows hd
    obtain ⟨b', hb', hmiss⟩ := valueGte_misses_duplicate hn hi hj hij hki hkj
    rw [hb, Option.some.injEq] at hb'
    subst hb'
    rw [asU32_of_lt (by omega), asU32_of_lt (by omega)] at hmiss
    rcases hmiss with hmiss | hmiss
    · exact hmiss ((hrows.mem_row hn hi).mpr hki.ge)
    · exact hmiss ((hrows.mem_row hn hj).mpr hkj.ge)
  · by_contra hd
    obtain ⟨i, j, hi, hj, hij, hki, hkj⟩ := exists_two_rows hd
    obtain ⟨b', hb', r, hr, hkr, hmem⟩ := valueLt_returns_duplicate hi hj hij hki hkj
    rw [hb, Option.some.injEq] at hb'
    subst hb'
    rw [asU32_of_lt (by omega)] at hmem
    exact lt_irrefl t (hkr ▸ (hrows.mem_row hn hr).mp hmem)

/-- Over the rows `[5, 5]` neither `value_gte 5` nor `value_lt 5` answers
exactly, and two rows hold the key `5`. -/
theorem one_sided_range_queries_exact_two_rows_of_five :
    [(⟨5, by decide⟩ : U64), ⟨5, by decide⟩].length < 2 ^ 32 ∧
      (∃ b, (build [(⟨5, by decide⟩ : U64), ⟨5, by decide⟩] id).valueGt ⟨5, by decide⟩ = some b ∧
        RowsWhere [(⟨5, by decide⟩ : U64), ⟨5, by decide⟩] id (⟨5, by decide⟩ < ·) b) ∧
      (∃ b, (build [(⟨5, by decide⟩ : U64), ⟨5, by decide⟩] id).valueLte ⟨5, by decide⟩ = some b ∧
        RowsWhere [(⟨5, by decide⟩ : U64), ⟨5, by decide⟩] id (· ≤ ⟨5, by decide⟩) b) ∧
      ((∃ b, (build [(⟨5, by decide⟩ : U64), ⟨5, by decide⟩] id).valueGte ⟨5, by decide⟩ = some b ∧
          RowsWhere [(⟨5, by decide⟩ : U64), ⟨5, by decide⟩] id (⟨5, by decide⟩ ≤ ·) b) ↔
        ([(⟨5, by decide⟩ : U64), ⟨5, by decide⟩].map id).countP (· = ⟨5, by decide⟩) ≤ 1) ∧
      ((∃ b, (build [(⟨5, by decide⟩ : U64), ⟨5, by decide⟩] id).valueLt ⟨5, by decide⟩ = some b ∧
          RowsWhere [(⟨5, by decide⟩ : U64), ⟨5, by decide⟩] id (· < ⟨5, by decide⟩) b) ↔
        ([(⟨5, by decide⟩ : U64), ⟨5, by decide⟩].map id).countP (· = ⟨5, by decide⟩) ≤ 1) :=
  ⟨by decide, one_sided_range_queries_exact (by decide) _⟩

/-- Over the rows `[5, 5]`, `value_gte 5` answers row 1 alone and `value_lt 5`
answers row 0, where the rows in range are `{0, 1}` and none. -/
theorem range_queries_on_two_fives :
    (build [(⟨5, by decide⟩ : U64), ⟨5, by decide⟩] id).valueGte ⟨5, by decide⟩ =
        some (bitmapOfIndices [1]) ∧
      (build [(⟨5, by decide⟩ : U64), ⟨5, by decide⟩] id).valueLt ⟨5, by decide⟩ =
        some (bitmapOfIndices [0]) := by
  decide

end RangeQueries

end TreeMan.IndexField
