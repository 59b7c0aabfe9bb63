import Mathlib
import TreeMan.Impl.Filter

/-!
# What a call leaves of the drill-down history

* A filtering call that fails leaves the view as it was, but for the mask,
  which `apply_field_bitmap` may set to the bitmap of the current positions
  before it fails (`failed_filtering_keeps_view`). What each function leaves,
  on error and on success, is stated once (`Leaves`,
  `applyFilteredIndices_leaves`, ...) and the call's follows
  (`FilteringCall.run_leaves`): a success pushes a level on `Owned` storage
  and leaves `Indexed` storage `Indexed`.
* A level of `MATERIALIZATION_THRESHOLD` rows or more keeps an empty
  placeholder as its rows, and `go_to_level` makes the placeholder the
  cache, which `items()` then returns (`goToLevel_large_level_items`).
* `apply_filtered_indices` on `Indexed` storage does not drop the mask that
  `go_to_level` set, so the mask can name positions that are no longer
  current (`indexed_filter_keeps_stale_mask`).
-/

namespace TreeMan

namespace FilterData

variable {N : Numerics} {T : Type} {s s' : FilterData N T} {e : GLobalError}

/-! ### What each filtering function leaves -/

/-- `s'` is `s`, or `s` with the bitmap of its current positions as the
mask. -/
def MaskedOrSame (s s' : FilterData N T) : Prop :=
  s' = s ∨ s' = { s with sourceIndicesMask := some (bitmapOfIndices s.currentIndices) }

/-- What a successful filtering call does to the storage: a level pushed on
`Owned` storage; `Indexed` storage stays `Indexed`. -/
def PushesLevel (s s' : FilterData N T) : Prop :=
  (∃ o indices, s.storage = .owned o ∧ s'.storage = .owned (o.pushLevel indices)) ∨
    ∃ x x', s.storage = .indexed x ∧ s'.storage = .indexed x'

/-- What the outcome `r` of a filtering function on `s` leaves: on error the
view of `s`, at most with the mask set; on success a level pushed. -/
structure Leaves (s : FilterData N T) (r : Outcome (FilterData N T)) : Prop where
  err : ∀ e s', r = .err e s' → MaskedOrSame s s'
  ok : ∀ s', r = .ok s' → PushesLevel s s'

theorem MaskedOrSame.storage (h : MaskedOrSame s s') : s'.storage = s.storage := by
  rcases h with rfl | rfl <;> rfl

/-- Setting the mask twice sets it to the same bitmap: the positions stay. -/
theorem MaskedOrSame.trans {s₁ : FilterData N T} (h₁ : MaskedOrSame s s₁)
    (h₂ : MaskedOrSame s₁ s') : MaskedOrSame s s' := by
  rcases h₁ with rfl | rfl
  · exact h₂
  · rcases h₂ with rfl | rfl
    · exact .inr rfl
    · exact .inr rfl

theorem PushesLevel.of_storage {s₀ : FilterData N T} (hst : s₀.storage = s.storage)
    (h : PushesLevel s₀ s') : PushesLevel s s' := by
  unfold PushesLevel
  rwa [← hst]

theorem leaves_err (e : GLobalError) : Leaves s (.err e s) where
  err _ _ hr := by cases hr; exact .inl rfl
  ok _ hr := by cases hr

theorem leaves_ok (h : PushesLevel s s') : Leaves s (.ok s') where
  err _ _ hr := by cases hr
  ok _ hr := by cases hr; exact h

theorem leaves_panic : Leaves s .panic where
  err _ _ hr := by cases hr
  ok _ hr := by cases hr

/-- A function that first only sets the mask. -/
theorem Leaves.of_masked {s₁ : FilterData N T} {r : Outcome (FilterData N T)}
    (hm : MaskedOrSame s s₁) (h : Leaves s₁ r) : Leaves s r :=
  ⟨fun e s' hr => hm.trans (h.err e s' hr), fun s' hr => (h.ok s' hr).of_storage hm.storage⟩

theorem applyFilteredIndices_leaves {indices : List Nat} {info : String} :
    Leaves s (s.applyFilteredIndices indices info) := by
  unfold applyFilteredIndices
  split_ifs
  · exact leaves_err _
  · split
    · rename_i o hst
      split_ifs
      · exact leaves_err _
      · exact leaves_ok (.inl ⟨o, indices, hst, rfl⟩)
    · rename_i x hst
      split
      · exact leaves_err _
      · split_ifs
        · exact leaves_err _
        · exact leaves_ok (.inr ⟨x, _, hst, rfl⟩)

theorem applyFilteredItems_leaves {predicate : T → Bool} {info : String} :
    Leaves s (s.applyFilteredItems predicate info) := by
  unfold applyFilteredItems
  dsimp only
  split
  · split_ifs
    · exact leaves_err _
    · exact leaves_err _
    · exact applyFilteredIndices_leaves
  · split
    · exact leaves_err _
    · split_ifs
      · exact leaves_err _
      · exact leaves_err _
      · exact applyFilteredIndices_leaves

theorem filter_leaves {predicate : T → Bool} : Leaves s (s.filter predicate) :=
  applyFilteredItems_leaves

theorem applyOwnedData_leaves {b : RoaringBitmap} {info : String} :
    Leaves s (s.applyOwnedData b info) := by
  unfold applyOwnedData
  split
  · rename_i o hst
    exact leaves_ok (.inl ⟨o, _, hst, rfl⟩)
  · exact leaves_err _

theorem applyIndexedData_leaves {indices : List Nat} {info : String} :
    Leaves s (s.applyIndexedData indices info) := by
  unfold applyIndexedData
  dsimp only
  split
  · rename_i x hst
    split
    · exact leaves_err _
    · split_ifs
      · exact leaves_err _
      · exact leaves_ok (.inr ⟨x, _, hst, rfl⟩)
  · exact leaves_err _

theorem applyFilteredItemsWithBitmap_leaves {b : RoaringBitmap} {info : String} :
    Leaves s (s.applyFilteredItemsWithBitmap b info) := by
  unfold applyFilteredItemsWithBitmap
  split
  · split_ifs
    · exact leaves_err _
    · exact leaves_err _
    · exact applyOwnedData_leaves
  · split_ifs
    · exact leaves_err _
    · exact applyIndexedData_leaves

/-- The only write of `apply_field_bitmap` before its checks: the mask. -/
theorem maskedBitmap_snd (b : RoaringBitmap) : MaskedOrSame s (s.maskedBitmap b).2 := by
  unfold maskedBitmap
  split
  · exact .inl rfl
  · split
    · split_ifs
      · right
        simp [currentIndices, *]
      · exact .inl rfl
    · exact .inl rfl

/-- After the mask, every outcome of `apply_field_bitmap` is one of the state
the mask made. -/
theorem applyFieldBitmap_leaves {b : RoaringBitmap} {description : String} :
    Leaves s (s.applyFieldBitmap b description) := by
  unfold applyFieldBitmap
  split_ifs
  · exact leaves_err _
  · have hm := maskedBitmap_snd (s := s) b
    rcases hsplit : s.maskedBitmap b with ⟨finalBitmap, s₁⟩
    rw [hsplit] at hm
    dsimp only
    refine Leaves.of_masked hm ?_
    split_ifs
    · exact leaves_err _
    · exact applyFilteredItemsWithBitmap_leaves

theorem doFilterByFieldsOps_leaves {opText : FieldOperation N → String}
    {fields : List (String × IndexFieldEnum N × List (FieldOperation N × Op))} :
    Leaves s (s.doFilterByFieldsOps opText fields) := by
  unfold doFilterByFieldsOps
  split_ifs
  · exact leaves_err _
  · split
    · exact leaves_err _
    · exact leaves_err _
    · exact applyFieldBitmap_leaves

theorem filterByFieldOps_leaves {opText : FieldOperation N → String} {name : String}
    {operations : List (FieldOperation N × Op)} {efficient : Bool} :
    Leaves s (s.filterByFieldOps opText name operations efficient) := by
  unfold filterByFieldOps
  split
  · exact leaves_err _
  · split
    · exact leaves_err _
    · split
      · exact doFilterByFieldsOps_leaves
      · exact filter_leaves

theorem filterByFieldsOps_leaves {opText : FieldOperation N → String}
    {fields : List (String × List (FieldOperation N × Op))} {efficient : Bool} :
    Leaves s (s.filterByFieldsOps opText fields efficient) := by
  unfold filterByFieldsOps
  split
  · exact leaves_err _
  · split
    · exact leaves_err _
    · split
      · exact leaves_err _
      · split
        · exact doFilterByFieldsOps_leaves
        · exact filter_leaves

theorem applyTextIndices_leaves {name desc : String} {textIndices : List Nat} :
    Leaves s (s.applyTextIndices name textIndices desc) := by
  unfold applyTextIndices
  dsimp only
  split_ifs
  · exact leaves_err _
  · exact leaves_err _
  · exact leaves_err _
  · exact applyFilteredIndices_leaves

theorem searchWithText_leaves {lower : List Char → List Char} {name : String}
    {query : List Char} : Leaves s (s.searchWithText lower name query) := by
  unfold searchWithText
  split
  · exact leaves_panic
  · exact leaves_err _
  · exact applyTextIndices_leaves

theorem searchComplexWordsText_leaves {lower : List Char → List Char} {name : String}
    {orWords andWords notWords : List (List Char)} :
    Leaves s (s.searchComplexWordsText lower name orWords andWords notWords) := by
  unfold searchComplexWordsText
  split
  · exact leaves_panic
  · exact leaves_err _
  · exact applyTextIndices_leaves

end FilterData

open FilterData

namespace FilteringCall

variable {N : Numerics} {T : Type} (lower : List Char → List Char)
  (opText : FieldOperation N → String) {s s' : FilterData N T} {e : GLobalError}

theorem run_leaves (c : FilteringCall N T) : Leaves s (c.run lower opText s) := by
  cases c with
  | filter predicate => exact filter_leaves
  | filterByFieldOps name operations efficient => exact filterByFieldOps_leaves
  | filterByFieldsOps fields efficient => exact filterByFieldsOps_leaves
  | searchWithText name query => exact searchWithText_leaves
  | searchComplexWordsText name orWords andWords notWords => exact searchComplexWordsText_leaves

theorem run_ok (c : FilteringCall N T) (h : c.run lower opText s = .ok s') : PushesLevel s s' :=
  (c.run_leaves lower opText).ok s' h

theorem run_err (c : FilteringCall N T) (h : c.run lower opText s = .err e s') :
    MaskedOrSame s s' :=
  (c.run_leaves lower opText).err e s' h

end FilteringCall

/-- A filtering call that fails leaves the view as it was: the current
positions, the cache (so `items()` and `len()`), the level, the level names,
the stored levels and the indexes. Only the mask may change, to the bitmap
of the current positions. -/
theorem failed_filtering_keeps_view {N : Numerics} {T : Type} (lower : List Char → List Char)
    (opText : FieldOperation N → String) (c : FilteringCall N T) {s s' : FilterData N T}
    {e : GLobalError} (h : c.run lower opText s = .err e s') :
    s' = s ∨ s' = { s with sourceIndicesMask := some (bitmapOfIndices s.currentIndices) } :=
  c.run_err lower opText h

/-- Filtering the one row of a view away fails, and leaves the view. -/
theorem failed_filter_keeps_one_row :
    (FilterData.fromVec [()] : FilterData Numerics.exactRat Unit) = FilterData.fromVec [()] ∨
      (FilterData.fromVec [()] : FilterData Numerics.exactRat Unit) =
        { FilterData.fromVec [()] with
          sourceIndicesMask :=
            some (bitmapOfIndices (FilterData.fromVec [()] : FilterData Numerics.exactRat Unit).currentIndices) } :=
  failed_filtering_keeps_view id (fun _ => "") (.filter fun _ => false) rfl

namespace FilterData

variable {N : Numerics} {T : Type}

/-! ### Levels of `MATERIALIZATION_THRESHOLD` rows or more -/

theorem rowsAt_range (rows : List T) :
    OwnedStorage.rowsAt rows (List.range rows.length) = rows := by
  induction rows with
  | nil => rfl
  | cons x xs ih =>
    rw [List.length_cons, List.range_succ_eq_map, OwnedStorage.rowsAt, List.filterMap_cons,
      List.filterMap_map]
    simpa [OwnedStorage.rowsAt, Function.comp_def] using ih

theorem keepMatching_range_true (rows : List T) :
    keepMatching rows (fun _ => true) (List.range rows.length) = List.range rows.length := by
  rw [keepMatching, List.filter_eq_self]
  intro i hi
  simp [List.mem_range.mp hi]

/-- The state that keeping every row of a fresh view of at least
`MATERIALIZATION_THRESHOLD` rows leaves: a second level, whose stored rows
are the empty placeholder, and no cache. -/
def keptAllLarge (rows : List T) : FilterData N T where
  storage := .owned
    { source := rows
      currentIndices := List.range rows.length
      currentCache := none
      fullIndices := List.range rows.length
      levels := [rows, []]
      levelIndices := [List.range rows.length, List.range rows.length] }
  levelInfo := ["Source", "Filtered"]
  currentLevel := 1
  indexes := fun _ => none
  sourceIndicesMask := none

theorem filter_fromVec_large (rows : List T) (h : materializationThreshold ≤ rows.length) :
    (fromVec rows : FilterData N T).filter (fun _ => true) = .ok (keptAllLarge rows) := by
  have hpos : rows.length ≠ 0 := by unfold materializationThreshold at h; omega
  have hne : (List.range rows.length).isEmpty = false := by simpa using hpos
  simp [filter, applyFilteredItems, fromVec, keepMatching_range_true, hne, applyFilteredIndices,
    maxHistory, OwnedStorage.pushLevel, Nat.not_lt.mpr h, updateLevelMetadata, keptAllLarge]

/-- Right after the level is made, `items()` has no cache to read and
returns the rows. -/
theorem keptAllLarge_items (rows : List T) :
    (keptAllLarge rows : FilterData N T).items.1 = rows := by
  simp [keptAllLarge, items, rowsAt_range]

/-- `go_to_level` to the level makes its placeholder the cache: `items()`
returns no row where `len()` counts them all. -/
theorem keptAllLarge_goToLevel (rows : List T) (h : rows ≠ []) :
    ((keptAllLarge rows : FilterData N T).goToLevel 1).items.1 = [] ∧
      ((keptAllLarge rows : FilterData N T).goToLevel 1).len = rows.length ∧
      ((keptAllLarge rows : FilterData N T).goToLevel 1).currentLevel = 1 := by
  have hpos : 0 < rows.length := List.length_pos_iff.mpr h
  simp [keptAllLarge, goToLevel, DataStorage.goToLevel, refreshMask, items, parentData,
    currentIndices, len, hpos]

/-- Over at least `MATERIALIZATION_THRESHOLD` rows, `go_to_level` back to the
level that kept them all loses its rows. -/
theorem goToLevel_after_large_filter (rows : List T) (h : materializationThreshold ≤ rows.length) :
    ∃ s, (fromVec rows : FilterData N T).filter (fun _ => true) = .ok s ∧
      s.items.1 = rows ∧ s.len = rows.length ∧ s.currentLevel = 1 ∧
      (s.goToLevel 1).items.1 = [] ∧ (s.goToLevel 1).len = rows.length ∧
      (s.goToLevel 1).currentLevel = 1 := by
  have hne : rows ≠ [] := List.ne_nil_of_length_pos (by unfold materializationThreshold at h; omega)
  refine ⟨keptAllLarge rows, filter_fromVec_large rows h, keptAllLarge_items rows, ?_, rfl,
    keptAllLarge_goToLevel rows hne⟩
  simp [keptAllLarge, len, currentIndices]

end FilterData

open FilterData

/-- Over 50,000 rows, keeping them all makes level 1, where `items()` has
the 50,000 rows; after `go_to_level(1)` it has none, while `len()` and
`current_level()` are as they were. -/
theorem goToLevel_large_level_items {N : Numerics} :
    ∃ s, (fromVec (List.replicate 50000 ()) : FilterData N Unit).filter (fun _ => true) = .ok s ∧
      s.items.1 = List.replicate 50000 () ∧ s.len = 50000 ∧ s.currentLevel = 1 ∧
      (s.goToLevel 1).items.1 = [] ∧ (s.goToLevel 1).len = 50000 ∧
      (s.goToLevel 1).currentLevel = 1 := by
  have h := goToLevel_after_large_filter (N := N) (List.replicate 50000 ())
    (by rw [List.length_replicate]; rfl)
  rwa [List.length_replicate] at h

/-! ### The mask of `Indexed` storage -/

/-- A view of rows `0` and `1` of three: `go_to_level(0)` sets the mask to
`{0, 1}`, and a filter that keeps row `1` leaves it, so the mask holds a
position that is no longer current. -/
theorem indexed_filter_keeps_stale_mask :
    ((((fromIndices [0, 1, 2] [0, 1] : FilterData Numerics.exactRat Nat).goToLevel 0).filter
        (fun x => decide (x ≠ 0))).ok?.map fun s => (s.currentIndices, s.sourceIndicesMask)) =
      some ([1], some (bitmapOfIndices [0, 1])) := by
  decide

end TreeMan
