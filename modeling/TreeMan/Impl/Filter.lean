import Mathlib
import TreeMan.Impl.IndexField
import TreeMan.Impl.Text
import TreeMan.Framework.Reachable

/-!
# Drill-down views (`filter.rs`, `index.rs`, `errors.rs`)

A `FilterData` is a view over rows: the positions of the current rows, the
history of the levels that led to them, the indexes built over the rows and a
cached mask of the current positions. Each successful filtering step pushes a
level; `go_to_level` and `up` return to an earlier one, `reset_to_source` to
the first.

The storage either owns the rows (`Owned`: every level keeps its positions,
and its rows while they are fewer than `MATERIALIZATION_THRESHOLD`) or refers
to the rows of a parent, weakly (`Indexed`: `parentData` is `none` once the
parent is freed).

Every call that takes `&self` is a function from the state to an `Outcome`:
the state after the call, with its error if it failed, or a panic. The state
is kept on an error because `apply_field_bitmap` stores the mask before its
last checks. A call that returns a value and writes the state (`items`, which
fills the cache) returns both.

`str::to_lowercase` (`lower`) and the `Display` text of a field operation
(`opText`, which only names levels) are parameters. The write lock and the
atomics, which make each call one step, the statistics behind
`need_to_use_index` (its argument `efficient`), `memory_stats` and
`filter_state_info` are not modelled. `FilterDataBuilder` is: its `build`
applies the index definitions one by one to a `from_vec` view.
-/

namespace TreeMan

/-- `MAX_HISTORY`. -/
def maxHistory : Nat := 50

/-- `MATERIALIZATION_THRESHOLD`. -/
def materializationThreshold : Nat := 50000

/-- `SMALL_DATASET_THRESHOLD`. -/
def smallDatasetThreshold : Nat := 1000

/-- `INDEX_FIELD`. -/
def indexField : String := "index_field"

/-- `INDEX_TEXT`. -/
def indexText : String := "text"

/-- `IndexError`, the variants the modelled code raises. -/
inductive IndexError
  | compatibility (name typeExist typeExpect : String)
  | field (err : IndexFieldError)
  | replace (name typeExist typeExpect : String)
  | notFound (name : String)

/-- `FilterDataError`, the variants the modelled code raises. -/
inductive FilterDataError
  | emptyOperations
  | maxHistoryExceeded (current max : Nat)
  | dataNotFound
  | dataNotFoundByIndex (name : String)
  | dataNotFoundByIndexCurrent (name : String)
  | parentDataIsEmpty
  | wrongSaveDataOwned
  | wrongSaveDataIndexed

/-- `GLobalError`. -/
inductive GLobalError
  | index (err : IndexError)
  | filterData (err : FilterDataError)
  | parentDataIsEmpty

/-- The end of a call on `&self`: the state it leaves, with its error if it
failed; or a panic, after which the call has no state to return. -/
inductive Outcome (σ : Type)
  | ok (s : σ)
  | err (e : GLobalError) (s : σ)
  | panic

/-- The state a call that succeeded leaves. -/
def Outcome.ok? {σ : Type} : Outcome σ → Option σ
  | .ok s => some s
  | _ => none

/-- A call that left a state succeeded with it. -/
theorem Outcome.eq_ok_getD {σ : Type} {x : Outcome σ} (d : σ) (h : x.ok?.isSome = true) :
    x = .ok (x.ok?.getD d) := by
  cases x with
  | ok s => rfl
  | err e s => cases h
  | panic => cases h

/-- The fields of `DataStorage::Owned`. -/
structure OwnedStorage (T : Type) where
  source : List T
  currentIndices : List Nat
  currentCache : Option (List T)
  fullIndices : List Nat
  levels : List (List T)
  levelIndices : List (List Nat)

/-- The fields of `DataStorage::Indexed`; `parentData` is the `Weak` pointer,
`none` once the parent is freed. -/
structure IndexedStorage (T : Type) where
  parentData : Option (List T)
  sourceIndices : List Nat
  currentIndices : List Nat
  indexLevels : List (List Nat)

/-- `DataStorage`. -/
inductive DataStorage (T : Type)
  | owned (o : OwnedStorage T)
  | indexed (x : IndexedStorage T)

/-- `IndexType`: a field index with the extractor that turns a row into a
`FieldValue`, or a text index. -/
inductive IndexType (N : Numerics) (T : Type)
  | field (index : IndexFieldEnum N) (extractor : T → FieldValue N)
  | text (index : TextIndex)

namespace IndexType

variable {N : Numerics} {T : Type}

/-- `index_type`. -/
def indexType : IndexType N T → String
  | .field .. => indexField
  | .text _ => indexText

/-- `as_text`. -/
def asText : IndexType N T → Option TextIndex
  | .text index => some index
  | .field .. => none

/-- `as_field`. -/
def asField : IndexType N T → Option (IndexFieldEnum N × (T → FieldValue N))
  | .field index extractor => some (index, extractor)
  | .text _ => none

/-- `is_field`. -/
def isField : IndexType N T → Bool
  | .field .. => true
  | .text _ => false

/-- `is_text`. -/
def isText : IndexType N T → Bool
  | .text _ => true
  | .field .. => false

end IndexType

/-- `CompatibilityAction`. -/
inductive CompatibilityAction
  | check
  | replace

/-- `FilterData`. The indexes are the `DashMap` from names. -/
structure FilterData (N : Numerics) (T : Type) where
  storage : DataStorage T
  levelInfo : List String
  currentLevel : Nat
  indexes : String → Option (IndexType N T)
  sourceIndicesMask : Option RoaringBitmap

/-- `evaluate_field_operations`, from the value `result` has so far: `And`
and `AndNot` return `false` at once when they make it false. `matched` is
the source's `matches`. -/
def evaluateFieldOperationsFrom {N : Numerics} (value : FieldValue N) :
    Bool → List (FieldOperation N × Op) → Bool
  | result, [] => result
  | result, (operation, opType) :: rest =>
    let matched := operation.evaluate value
    match opType with
    | .and =>
      let result := result && matched
      if !result then false else evaluateFieldOperationsFrom value result rest
    | .or => evaluateFieldOperationsFrom value (result || matched) rest
    | .andNot =>
      let result := result && !matched
      if !result then false else evaluateFieldOperationsFrom value result rest
    | .xor => evaluateFieldOperationsFrom value (result ^^ matched) rest
    | .invert => evaluateFieldOperationsFrom value (!result) rest

/-- `evaluate_field_operations`: the loop starts from `true`. -/
def evaluateFieldOperations {N : Numerics} (value : FieldValue N)
    (operations : List (FieldOperation N × Op)) : Bool :=
  evaluateFieldOperationsFrom value true operations

/-- `build_field_predicate`: every field's operations hold of the row. -/
def buildFieldPredicate {N : Numerics} {T : Type}
    (fields : List ((T → FieldValue N) × List (FieldOperation N × Op))) (item : T) : Bool :=
  fields.all fun f => evaluateFieldOperations (f.1 item) f.2

/-- `intersect_indices`: the positions in both lists, in increasing order,
through `u32` bitmaps. -/
def intersectIndices (a b : List Nat) : List Nat :=
  if a.isEmpty || b.isEmpty then []
  else toIndices ((bitmapOfIndices a).inter (bitmapOfIndices b))

/-- `format_complex_query_desc`. -/
def formatComplexQueryDesc (orWords andWords notWords : List String) : String :=
  let orPart := if orWords.isEmpty then []
    else if orWords.length = 1 then orWords.take 1
    else ["(" ++ " OR ".intercalate orWords ++ ")"]
  let notPart := if notWords.isEmpty then [] else ["NOT " ++ " NOT ".intercalate notWords]
  let parts := orPart ++ andWords ++ notPart
  if parts.isEmpty then "all" else " AND ".intercalate parts

namespace OwnedStorage

variable {T : Type}

/-- The rows at some positions of the source; a position past the end is
skipped (`filter_map(|&idx| source.get(idx).cloned())`). -/
def rowsAt (source : List T) (indices : List Nat) : List T :=
  indices.filterMap fun idx => source[idx]?

/-- The writes of `apply_owned_data` and `apply_filtered_indices` to the
storage for a new level: its positions become current and are pushed, and
its rows are pushed and cached below `MATERIALIZATION_THRESHOLD`; from there
on an empty placeholder is pushed and the cache is emptied. -/
def pushLevel (o : OwnedStorage T) (indices : List Nat) : OwnedStorage T :=
  if indices.length < materializationThreshold then
    let items := rowsAt o.source indices
    { o with currentIndices := indices, levelIndices := o.levelIndices ++ [indices],
             levels := o.levels ++ [items], currentCache := some items }
  else
    { o with currentIndices := indices, levelIndices := o.levelIndices ++ [indices],
             levels := o.levels ++ [[]], currentCache := none }

end OwnedStorage

/-- The storage of `go_to_level` before the mask: the level's positions
become current (and its stored rows the cache, for `Owned` storage), and when
`trim` the later levels are dropped. -/
def DataStorage.goToLevel {T : Type} (targetLevel : Nat) (trim : Bool) :
    DataStorage T → DataStorage T
  | .owned o => .owned { o with
      currentIndices := o.levelIndices[targetLevel]?.getD o.currentIndices
      currentCache := o.levels[targetLevel]?
      levels := if trim then o.levels.take (targetLevel + 1) else o.levels
      levelIndices := if trim then o.levelIndices.take (targetLevel + 1) else o.levelIndices }
  | .indexed x => .indexed { x with
      currentIndices := x.indexLevels[targetLevel]?.getD x.currentIndices
      indexLevels := if trim then x.indexLevels.take (targetLevel + 1) else x.indexLevels }

namespace FilterData

variable {N : Numerics} {T : Type}

/-- `from_vec`: the rows are the source, and every row is current. -/
def fromVec (items : List T) : FilterData N T where
  storage := .owned
    { source := items
      currentIndices := List.range items.length
      currentCache := none
      fullIndices := List.range items.length
      levels := [items]
      levelIndices := [List.range items.length] }
  levelInfo := ["Source"]
  currentLevel := 0
  indexes := fun _ => none
  sourceIndicesMask := none

/-- `from_vec_arc_value`: the same state as `from_vec`, over rows already in
`Arc`s. -/
def fromVecArcValue (items : List T) : FilterData N T := fromVec items

/-- `from_indices`: a view of some rows of a parent. -/
def fromIndices (parentData : List T) (indices : List Nat) : FilterData N T where
  storage := .indexed
    { parentData := some parentData
      sourceIndices := indices
      currentIndices := indices
      indexLevels := [indices] }
  levelInfo := ["Source"]
  currentLevel := 0
  indexes := fun _ => none
  sourceIndicesMask := none

/-- `current_indices`. -/
def currentIndices (s : FilterData N T) : List Nat :=
  match s.storage with
  | .owned o => o.currentIndices
  | .indexed x => x.currentIndices

/-- `len`. -/
def len (s : FilterData N T) : Nat := s.currentIndices.length

/-- `parent_data`: the source, or the parent while it lives. -/
def parentData (s : FilterData N T) : Option (List T) :=
  match s.storage with
  | .owned o => some o.source
  | .indexed x => x.parentData

/-- `level_name`. -/
def levelName (s : FilterData N T) (level : Nat) : Option String := s.levelInfo[level]?

/-- `items`: the cache if there is one, else the rows at the current
positions, which are cached below `MATERIALIZATION_THRESHOLD`. An `Indexed`
view has no rows once its parent is freed. -/
def items (s : FilterData N T) : List T × FilterData N T :=
  match s.storage with
  | .owned o =>
    match o.currentCache with
    | some cached => (cached, s)
    | none =>
      let items := OwnedStorage.rowsAt o.source o.currentIndices
      (items, if items.length < materializationThreshold then
        { s with storage := .owned { o with currentCache := some items } } else s)
  | .indexed x =>
    match x.parentData with
    | some parent => (OwnedStorage.rowsAt parent x.currentIndices, s)
    | none => ([], s)

/-- `has_index`. -/
def hasIndex (s : FilterData N T) (name : String) : Bool := (s.indexes name).isSome

/-- `drop_index`. -/
def dropIndex (s : FilterData N T) (name : String) : FilterData N T :=
  { s with indexes := Function.update s.indexes name none }

/-- `indexes.insert`. -/
def insertIndex (s : FilterData N T) (name : String) (index : IndexType N T) : FilterData N T :=
  { s with indexes := Function.update s.indexes name (some index) }

/-- `clear_filed_index`: drops the field indexes. -/
def clearFiledIndex (s : FilterData N T) : FilterData N T :=
  { s with indexes := fun name => (s.indexes name).filter fun index => !index.isField }

/-- `clear_text_indexes`. -/
def clearTextIndexes (s : FilterData N T) : FilterData N T :=
  { s with indexes := fun name => (s.indexes name).filter fun index => !index.isText }

/-- `clear_all_indexes`. -/
def clearAllIndexes (s : FilterData N T) : FilterData N T :=
  { s with indexes := fun _ => none }

/-- `get_index`. -/
def getIndex (s : FilterData N T) (name : String) : Except GLobalError (IndexType N T) :=
  match s.indexes name with
  | some index => .ok index
  | none => .error (.index (.notFound name))

/-- `check_index_type_compability`. -/
def checkIndexTypeCompability (s : FilterData N T) (name expectedType : String)
    (action : CompatibilityAction) : Except IndexError Unit :=
  match s.indexes name with
  | some existIndex =>
    let existType := existIndex.indexType
    if expectedType ≠ existType then
      match action with
      | .check => .error (.compatibility name existType expectedType)
      | .replace => .error (.replace name existType expectedType)
    else .ok ()
  | none => .error (.notFound name)

/-- The common head of `create_field_index` and `create_text_index`: an
index of the name must be of the type, and is dropped. -/
def replaceIndex (s : FilterData N T) (name expectedType : String) :
    Except GLobalError (FilterData N T) :=
  if s.hasIndex name then
    match s.checkIndexTypeCompability name expectedType .replace with
    | .error err => .error (.index err)
    | .ok () => .ok (s.dropIndex name)
  else .ok s

/-- `create_field_index`: a field index over the rows of `items()`, with
`extractor` into the key type `ty`. -/
def createFieldIndex (s : FilterData N T) (name : String) (ty : FieldType)
    (extractor : T → ty.Carrier N) : Outcome (FilterData N T) :=
  match s.replaceIndex name indexField with
  | .error err => .err err s
  | .ok s =>
    let (items, s) := s.items
    .ok (s.insertIndex name
      (.field ⟨ty, IndexField.build items extractor⟩ fun item => ty.toValue (extractor item)))

/-- `create_text_index`: a tri-gram index over the rows of `items()`. -/
def createTextIndex (lower : List Char → List Char) (s : FilterData N T) (name : String)
    (extractor : T → List Char) : Outcome (FilterData N T) :=
  match s.replaceIndex name indexText with
  | .error err => .err err s
  | .ok s =>
    let (items, s) := s.items
    match TextIndex.newTriGram.build lower items extractor with
    | some index => .ok (s.insertIndex name (.text index))
    | none => .panic

/-- `update_level_metadata`: names the new level and makes it current. -/
def updateLevelMetadata (s : FilterData N T) (currentLevel : Nat) (info : String) :
    FilterData N T :=
  { s with levelInfo := s.levelInfo ++ [info], currentLevel := currentLevel + 1 }

/-- `apply_owned_data`: the bitmap becomes the mask and the current
positions, as a new level. -/
def applyOwnedData (s : FilterData N T) (bitmap : RoaringBitmap) (info : String) :
    Outcome (FilterData N T) :=
  match s.storage with
  | .owned o =>
    .ok ({ s with storage := .owned (o.pushLevel (toIndices bitmap)),
                  sourceIndicesMask := some bitmap }.updateLevelMetadata s.currentLevel info)
  | .indexed _ => .err (.filterData .wrongSaveDataIndexed) s

/-- `apply_indexed_data`: the positions become current, as a new level whose
number is the number of levels before it. -/
def applyIndexedData (s : FilterData N T) (indices : List Nat) (info : String) :
    Outcome (FilterData N T) :=
  match s.storage with
  | .indexed x =>
    match x.parentData with
    | none => .err (.filterData .parentDataIsEmpty) s
    | some _ =>
      let totalLevel := x.indexLevels.length
      if indices.isEmpty then .err (.filterData (.dataNotFoundByIndexCurrent info)) s
      else
        .ok { s with
          storage := .indexed
            { x with currentIndices := indices, indexLevels := x.indexLevels ++ [indices] }
          levelInfo := s.levelInfo ++ [info]
          currentLevel := totalLevel }
  | .owned _ => .err (.filterData .wrongSaveDataOwned) s

/-- `apply_filtered_items_with_bitmap`. -/
def applyFilteredItemsWithBitmap (s : FilterData N T) (finalBitmap : RoaringBitmap)
    (info : String) : Outcome (FilterData N T) :=
  match s.storage with
  | .owned o =>
    if o.levels.length > maxHistory then
      .err (.filterData (.maxHistoryExceeded o.levels.length maxHistory)) s
    else if finalBitmap.isEmpty then .err (.filterData (.dataNotFoundByIndexCurrent info)) s
    else s.applyOwnedData finalBitmap info
  | .indexed x =>
    if x.indexLevels.length > maxHistory then
      .err (.filterData (.maxHistoryExceeded x.indexLevels.length maxHistory)) s
    else s.applyIndexedData (toIndices finalBitmap) info

/-- The bitmap `apply_field_bitmap` filters with, and the state after it: the
mask when there is one; else, for `Owned` storage whose current positions are
not all the rows, their bitmap, which it stores as the mask. -/
def maskedBitmap (s : FilterData N T) (bitmap : RoaringBitmap) :
    RoaringBitmap × FilterData N T :=
  match s.sourceIndicesMask with
  | some currentMask => (currentMask.inter bitmap, s)
  | none =>
    match s.storage with
    | .owned o =>
      if o.currentIndices.length < o.fullIndices.length then
        let currentBitmap := bitmapOfIndices o.currentIndices
        (currentBitmap.inter bitmap, { s with sourceIndicesMask := some currentBitmap })
      else (bitmap, s)
    | .indexed _ => (bitmap, s)

/-- `apply_field_bitmap`. -/
def applyFieldBitmap (s : FilterData N T) (bitmap : RoaringBitmap) (description : String) :
    Outcome (FilterData N T) :=
  if bitmap.isEmpty then .err (.filterData (.dataNotFoundByIndex description)) s
  else
    let (finalBitmap, s) := s.maskedBitmap bitmap
    if finalBitmap.isEmpty then .err (.filterData (.dataNotFoundByIndexCurrent description)) s
    else s.applyFilteredItemsWithBitmap finalBitmap description

/-- `apply_filtered_indices`: the positions become current, as a new level.
`Owned` storage drops the mask; `Indexed` storage keeps it. -/
def applyFilteredIndices (s : FilterData N T) (indices : List Nat) (info : String) :
    Outcome (FilterData N T) :=
  if indices.isEmpty then .err (.filterData .dataNotFound) s
  else
    match s.storage with
    | .owned o =>
      if o.levels.length > maxHistory then
        .err (.filterData (.maxHistoryExceeded o.levels.length maxHistory)) s
      else
        .ok ({ s with storage := .owned (o.pushLevel indices),
                      sourceIndicesMask := none }.updateLevelMetadata s.currentLevel info)
    | .indexed x =>
      match x.parentData with
      | none => .err (.filterData .parentDataIsEmpty) s
      | some _ =>
        if x.indexLevels.length > maxHistory then
          .err (.filterData (.maxHistoryExceeded x.indexLevels.length maxHistory)) s
        else
          .ok ({ s with storage := .indexed { x with currentIndices := indices,
                                                     indexLevels := x.indexLevels ++ [indices] } }
            |>.updateLevelMetadata s.currentLevel info)

/-- `apply_filtered_items_with_indices`. -/
def applyFilteredItemsWithIndices (s : FilterData N T) (indices : List Nat) (info : String) :
    Outcome (FilterData N T) :=
  s.applyFilteredIndices indices info

/-- The current positions whose row exists and satisfies the predicate
(`source.get(idx).filter(predicate).map(|_| idx)`). -/
def keepMatching (rows : List T) (predicate : T → Bool) (indices : List Nat) : List Nat :=
  indices.filter fun idx => rows[idx]?.any predicate

/-- `apply_filtered_items`. -/
def applyFilteredItems (s : FilterData N T) (predicate : T → Bool) (info : String) :
    Outcome (FilterData N T) :=
  match s.storage with
  | .owned o =>
    if o.levels.length > maxHistory then
      .err (.filterData (.maxHistoryExceeded o.levels.length maxHistory)) s
    else
      let filteredIndices := keepMatching o.source predicate o.currentIndices
      if filteredIndices.isEmpty then .err (.filterData .dataNotFound) s
      else s.applyFilteredIndices filteredIndices info
  | .indexed x =>
    match x.parentData with
    | none => .err (.filterData .parentDataIsEmpty) s
    | some parent =>
      if x.indexLevels.length > maxHistory then
        .err (.filterData (.maxHistoryExceeded x.indexLevels.length maxHistory)) s
      else
        let filteredIndices := keepMatching parent predicate x.currentIndices
        if filteredIndices.isEmpty then .err (.filterData .dataNotFound) s
        else s.applyFilteredIndices filteredIndices info

/-- `filter`. -/
def filter (s : FilterData N T) (predicate : T → Bool) : Outcome (FilterData N T) :=
  s.applyFilteredItems predicate "Filtered"

/-- `apply_field_operations`: one operation is answered by `filter_operation`,
several by `filter_operations`. -/
def applyFieldOperations (fieldIndex : IndexFieldEnum N)
    (operations : List (FieldOperation N × Op)) : Except GLobalError RoaringBitmap :=
  let bitmap := match operations with
    | [operation] => fieldIndex.filterOperation operation.1
    | _ => fieldIndex.filterOperations operations
  bitmap.mapError fun err => .index (.field err)

/-- The loop of `do_filter_by_fields_ops`: the intersection of the fields'
bitmaps and their descriptions; a field without operations is skipped. -/
def combineFieldBitmaps (opText : FieldOperation N → String) :
    List (String × IndexFieldEnum N × List (FieldOperation N × Op)) → Option RoaringBitmap →
      List String → Except GLobalError (Option RoaringBitmap × List String)
  | [], combined, descriptions => .ok (combined, descriptions)
  | (fieldName, fieldIndex, operations) :: rest, combined, descriptions =>
    if operations.isEmpty then combineFieldBitmaps opText rest combined descriptions
    else
      match applyFieldOperations fieldIndex operations with
      | .error err => .error err
      | .ok fieldBitmap =>
        let opDesc := ", ".intercalate (operations.map fun p => opText p.1)
        let combined := match combined with
          | none => fieldBitmap
          | some existing => existing.inter fieldBitmap
        combineFieldBitmaps opText rest (some combined)
          (descriptions ++ [fieldName ++ ": " ++ opDesc])

/-- `do_filter_by_fields_ops`. -/
def doFilterByFieldsOps (opText : FieldOperation N → String) (s : FilterData N T)
    (fields : List (String × IndexFieldEnum N × List (FieldOperation N × Op))) :
    Outcome (FilterData N T) :=
  if fields.isEmpty then .err (.filterData .emptyOperations) s
  else
    match combineFieldBitmaps opText fields none [] with
    | .error err => .err err s
    | .ok (none, _) => .err (.filterData .emptyOperations) s
    | .ok (some finalBitmap, descriptions) =>
      s.applyFieldBitmap finalBitmap (" AND ".intercalate descriptions)

/-- `need_to_use_index`: never below `SMALL_DATASET_THRESHOLD` current rows;
above, `efficient` stands for the statistics' verdict (every operation
efficient for its index, and an estimated selectivity of at most
`SELECTIVITY_THRESHOLD`). -/
def needToUseIndex (s : FilterData N T) (efficient : Bool) : Bool :=
  if s.len < smallDatasetThreshold then false else efficient

/-- The field index of a name, with its extractor, or the error of
`filter_by_field_ops` and `filter_by_fields_ops` for an index of another
type. -/
def fieldIndexOf (name : String) (index : IndexType N T) :
    Except GLobalError (IndexFieldEnum N × (T → FieldValue N)) :=
  match index.asField with
  | some field => .ok field
  | none => .error (.index (.compatibility name index.indexType indexField))

/-- `filter_by_field_ops`: through the index when `need_to_use_index` says
so, else by scanning the rows with `build_field_predicate`. -/
def filterByFieldOps (opText : FieldOperation N → String) (s : FilterData N T) (name : String)
    (operations : List (FieldOperation N × Op)) (efficient : Bool) : Outcome (FilterData N T) :=
  if operations.isEmpty then .err (.filterData .emptyOperations) s
  else
    match s.getIndex name >>= fieldIndexOf name with
    | .error err => .err err s
    | .ok (fieldIndex, extractor) =>
      if s.needToUseIndex efficient then
        s.doFilterByFieldsOps opText [(name, fieldIndex, operations)]
      else s.filter (buildFieldPredicate [(extractor, operations)])

/-- `filter_by_fields_ops`: every name is looked up first, then each index
must be a field index. -/
def filterByFieldsOps (opText : FieldOperation N → String) (s : FilterData N T)
    (fields : List (String × List (FieldOperation N × Op))) (efficient : Bool) :
    Outcome (FilterData N T) :=
  if fields.isEmpty then .err (.filterData .emptyOperations) s
  else
    match fields.mapM (fun f => s.getIndex f.1) with
    | .error err => .err err s
    | .ok indexes =>
      match (fields.zip indexes).mapM (fun p => fieldIndexOf p.1.1 p.2) with
      | .error err => .err err s
      | .ok resolved =>
        if s.needToUseIndex efficient then
          s.doFilterByFieldsOps opText
            ((fields.zip resolved).map fun p => (p.1.1, p.2.1, p.1.2))
        else s.filter (buildFieldPredicate ((fields.zip resolved).map fun p => (p.2.2, p.1.2)))

/-- `get_indices_with_text`; `none` when the search panics. -/
def getIndicesWithText (lower : List Char → List Char) (s : FilterData N T) (name : String)
    (query : List Char) : Option (Except GLobalError (List Nat)) :=
  match s.indexes name with
  | none => some (.error (.index (.notFound name)))
  | some index =>
    match index.asText with
    | none => some (.error (.index (.compatibility name index.indexType indexText)))
    | some ngramIndex => (ngramIndex.search lower query).map .ok

/-- The positions a text search keeps: those the text index answered,
intersected with the current positions unless there are as many of these as
rows of the parent. -/
def narrowToCurrent (s : FilterData N T) (textIndices : List Nat) : List Nat :=
  let currentIndices := s.currentIndices
  if currentIndices.length = (s.parentData.map List.length).getD 0 then textIndices
  else intersectIndices currentIndices textIndices

/-- The tail shared by `apply_text_search` and
`apply_complex_words_text_search`: the positions a text index answered,
narrowed to the current ones, become a new level. -/
def applyTextIndices (s : FilterData N T) (name : String) (textIndices : List Nat)
    (desc : String) : Outcome (FilterData N T) :=
  if textIndices.isEmpty then .err (.filterData (.dataNotFoundByIndex name)) s
  else
    let intersectedIndices := s.narrowToCurrent textIndices
    if intersectedIndices.isEmpty then .err (.filterData (.dataNotFoundByIndexCurrent name)) s
    else if s.parentData.isNone then .err (.filterData .parentDataIsEmpty) s
    else s.applyFilteredItemsWithIndices intersectedIndices desc

/-- `apply_text_search`, which `search_with_text` is. -/
def searchWithText (lower : List Char → List Char) (s : FilterData N T) (name : String)
    (query : List Char) : Outcome (FilterData N T) :=
  match s.getIndicesWithText lower name query with
  | none => .panic
  | some (.error err) => .err err s
  | some (.ok textIndices) =>
    s.applyTextIndices name textIndices ("Text search: '" ++ String.ofList query ++ "'")

/-- `get_indices_complex_words`; `none` when the search panics. -/
def getIndicesComplexWords (lower : List Char → List Char) (s : FilterData N T)
    (name : String) (orWords andWords notWords : List (List Char)) :
    Option (Except GLobalError (List Nat)) :=
  match s.indexes name with
  | none => some (.error (.index (.notFound name)))
  | some index =>
    match index.asText with
    | none => some (.error (.index (.compatibility name index.indexType indexText)))
    | some ngramIndex => (ngramIndex.searchComplexWords lower orWords andWords notWords).map .ok

/-- `apply_complex_words_text_search`, which `search_complex_words_text` is. -/
def searchComplexWordsText (lower : List Char → List Char) (s : FilterData N T) (name : String)
    (orWords andWords notWords : List (List Char)) : Outcome (FilterData N T) :=
  match s.getIndicesComplexWords lower name orWords andWords notWords with
  | none => .panic
  | some (.error err) => .err err s
  | some (.ok complexIndices) =>
    s.applyTextIndices name complexIndices ("Complex search: " ++
      formatComplexQueryDesc (orWords.map String.ofList) (andWords.map String.ofList)
        (notWords.map String.ofList))

/-- `reset_to_source`: back to the first level, with every row of the source
current (and cached, for `Owned` storage), and no mask. -/
def resetToSource (s : FilterData N T) : FilterData N T :=
  let storage := match s.storage with
    | .owned o => .owned { o with currentIndices := o.fullIndices, currentCache := some o.source,
                                  levels := [o.source], levelIndices := [o.fullIndices] }
    | .indexed x => .indexed { x with currentIndices := x.sourceIndices,
                                      indexLevels := [x.sourceIndices] }
  { s with storage := storage, levelInfo := ["Source"], currentLevel := 0,
           sourceIndicesMask := none }

/-- The mask `go_to_level` leaves: the bitmap of the current positions when
they are fewer than the parent's rows, none when they are not; a view
without rows keeps its mask. -/
def refreshMask (s : FilterData N T) : FilterData N T :=
  let sourceLen := (s.parentData.map List.length).getD 0
  if sourceLen > 0 then
    if s.currentIndices.length < sourceLen then
      { s with sourceIndicesMask := some (bitmapOfIndices s.currentIndices) }
    else { s with sourceIndicesMask := none }
  else s

/-- `go_to_level`: nothing for a level that does not exist. -/
def goToLevel (s : FilterData N T) (targetLevel : Nat) : FilterData N T :=
  let totalLevels := s.levelInfo.length
  if targetLevel ≥ totalLevels then s
  else
    let trim := decide (targetLevel < totalLevels - 1)
    refreshMask { s with
      storage := s.storage.goToLevel targetLevel trim
      levelInfo := if trim then s.levelInfo.take (targetLevel + 1) else s.levelInfo
      currentLevel := targetLevel }

/-- `up`. -/
def up (s : FilterData N T) : FilterData N T :=
  if s.currentLevel > 0 then s.goToLevel (s.currentLevel - 1) else s

/-- The parent of an `Indexed` view is freed (its last `Arc` dropped
elsewhere). -/
def releaseParent (s : FilterData N T) : FilterData N T :=
  match s.storage with
  | .owned _ => s
  | .indexed x => { s with storage := .indexed { x with parentData := none } }

end FilterData

/-! ### The calls of a client -/

/-- The filtering calls of the API, which push a level when they succeed. -/
inductive FilteringCall (N : Numerics) (T : Type)
  | filter (predicate : T → Bool)
  | filterByFieldOps (name : String) (operations : List (FieldOperation N × Op))
      (efficient : Bool)
  | filterByFieldsOps (fields : List (String × List (FieldOperation N × Op))) (efficient : Bool)
  | searchWithText (name : String) (query : List Char)
  | searchComplexWordsText (name : String) (orWords andWords notWords : List (List Char))

/-- Every call a client can make on a `FilterData`, and the freeing of the
parent of an `Indexed` view. -/
inductive Call (N : Numerics) (T : Type)
  | filtering (call : FilteringCall N T)
  | goToLevel (targetLevel : Nat)
  | up
  | resetToSource
  | createFieldIndex (name : String) (ty : FieldType) (extractor : T → ty.Carrier N)
  | createTextIndex (name : String) (extractor : T → List Char)
  | dropIndex (name : String)
  | clearFiledIndex
  | clearTextIndexes
  | clearAllIndexes
  | items
  | releaseParent

variable {N : Numerics} {T : Type}
variable (lower : List Char → List Char) (opText : FieldOperation N → String)

/-- A filtering call, on a state. -/
def FilteringCall.run (s : FilterData N T) : FilteringCall N T → Outcome (FilterData N T)
  | .filter predicate => s.filter predicate
  | .filterByFieldOps name operations efficient =>
    s.filterByFieldOps opText name operations efficient
  | .filterByFieldsOps fields efficient => s.filterByFieldsOps opText fields efficient
  | .searchWithText name query => s.searchWithText lower name query
  | .searchComplexWordsText name orWords andWords notWords =>
    s.searchComplexWordsText lower name orWords andWords notWords

/-- A call, on a state. -/
def Call.run (s : FilterData N T) : Call N T → Outcome (FilterData N T)
  | .filtering call => call.run lower opText s
  | .goToLevel targetLevel => .ok (s.goToLevel targetLevel)
  | .up => .ok s.up
  | .resetToSource => .ok s.resetToSource
  | .createFieldIndex name ty extractor => s.createFieldIndex name ty extractor
  | .createTextIndex name extractor => s.createTextIndex lower name extractor
  | .dropIndex name => .ok (s.dropIndex name)
  | .clearFiledIndex => .ok s.clearFiledIndex
  | .clearTextIndexes => .ok s.clearTextIndexes
  | .clearAllIndexes => .ok s.clearAllIndexes
  | .items => .ok s.items.2
  | .releaseParent => .ok s.releaseParent

/-- One call, successful or not, that returns a state. -/
def Step (s s' : FilterData N T) : Prop :=
  ∃ c : Call N T, c.run lower opText s = .ok s' ∨ ∃ e, c.run lower opText s = .err e s'

/-- The states of `from_vec` (and of `from_vec_arc_value`, the same state)
and of `from_indices`. -/
def Initial (s : FilterData N T) : Prop :=
  (∃ items, s = FilterData.fromVec items) ∨
    ∃ parentData indices, s = FilterData.fromIndices parentData indices

/-- The states a run of calls reaches. -/
def FilterData.Reachable : FilterData N T → Prop :=
  Transition.Reachable Initial (Step lower opText)

/-! ### The builder -/

/-- An `IndexDefinition`: the index `with_field_index` or `with_text_index`
asks for, applied by `build` to the new view. -/
inductive IndexDefinition (N : Numerics) (T : Type)
  | field (name : String) (ty : FieldType) (extractor : T → ty.Carrier N)
  | text (name : String) (extractor : T → List Char)

namespace IndexDefinition

/-- The name of the index. -/
def name : IndexDefinition N T → String
  | .field name .. => name
  | .text name _ => name

/-- The type of the index it creates. -/
def indexType : IndexDefinition N T → String
  | .field .. => indexField
  | .text .. => indexText

/-- The applier: `create_field_index` or `create_text_index` on the view. -/
def apply (s : FilterData N T) : IndexDefinition N T → Outcome (FilterData N T)
  | .field name ty extractor => s.createFieldIndex name ty extractor
  | .text name extractor => s.createTextIndex lower name extractor

end IndexDefinition

/-- The loop of `FilterDataBuilder::build`: each applier in turn on the one
view, the first error returned by `?`; `none` when one panics. -/
def applyIndexDefinitions :
    FilterData N T → List (IndexDefinition N T) → Option (Except GLobalError (FilterData N T))
  | s, [] => some (.ok s)
  | s, d :: rest =>
    match d.apply lower s with
    | .ok s' => applyIndexDefinitions s' rest
    | .err e _ => some (.error e)
    | .panic => none

/-- `FilterDataBuilder`: the rows, and the index definitions in the order
they were added. -/
structure FilterDataBuilder (N : Numerics) (T : Type) where
  data : Option (List T)
  indexes : List (IndexDefinition N T)

namespace FilterDataBuilder

/-- `FilterDataBuilder::new`. -/
def new : FilterDataBuilder N T := ⟨none, []⟩

/-- `with_data`. -/
def withData (b : FilterDataBuilder N T) (data : List T) : FilterDataBuilder N T :=
  { b with data := some data }

/-- `with_field_index`. -/
def withFieldIndex (b : FilterDataBuilder N T) (name : String) (ty : FieldType)
    (extractor : T → ty.Carrier N) : FilterDataBuilder N T :=
  { b with indexes := b.indexes ++ [.field name ty extractor] }

/-- `with_text_index`. -/
def withTextIndex (b : FilterDataBuilder N T) (name : String) (extractor : T → List Char) :
    FilterDataBuilder N T :=
  { b with indexes := b.indexes ++ [.text name extractor] }

/-- `build`: `from_vec` of the rows, then every index definition; `none`
when the rows were not given (the `expect`) or an applier panics. -/
def build (b : FilterDataBuilder N T) : Option (Except GLobalError (FilterData N T)) :=
  match b.data with
  | none => none
  | some data => applyIndexDefinitions lower (FilterData.fromVec data) b.indexes

end FilterDataBuilder

end TreeMan
