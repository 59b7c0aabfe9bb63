import Mathlib
import TreeMan.Framework.SortedMap
import TreeMan.Framework.BinarySearch
import TreeMan.Impl.Bit
import TreeMan.Impl.FieldValue

/-!
# Typed field indexes (`index/field.rs`)

`IndexField V` maps each key to the bitmap of the rows that have it
(`values`), and keeps one `(key, row)` pair per row, sorted by key
(`sortedValues`), for range queries, with the number of keys
(`uniqueCount`). `build` fills them from the items;
`valueEq` ... `valueRangeExclusive` are the queries, the range ones through
`valueRangeFast`, the branch-free binary search of the standard library, with
the `BTreeMap` range as fallback. `IndexFieldEnum` is one index of any key
type, and `filterOperation` / `filterOperations` answer `FieldOperation`s by
converting their values to the key type (the macro
`define_index_field_enum!`).

The statistics computed from `unique_count` (`cardinality_ratio`,
`index_quality`, `index_skewed`, `index_analyzer`) feed only the choice
between the index and a scan, which is not modelled (see `Filter`), and are
left out.
-/

namespace TreeMan

/-- `std::ops::Bound`. -/
inductive Bound (V : Type)
  | included (v : V)
  | excluded (v : V)
  | unbounded

namespace Bound

variable {V : Type} [LinearOrder V]

/-- Whether a key lies above a lower bound. -/
def admitsFrom : Bound V → V → Prop
  | included v, k => v ≤ k
  | excluded v, k => v < k
  | unbounded, _ => True

/-- Whether a key lies below an upper bound. -/
def admitsTo : Bound V → V → Prop
  | included v, k => k ≤ v
  | excluded v, k => k < v
  | unbounded, _ => True

instance (b : Bound V) (k : V) : Decidable (b.admitsFrom k) := by
  cases b <;> unfold admitsFrom <;> infer_instance

instance (b : Bound V) (k : V) : Decidable (b.admitsTo k) := by
  cases b <;> unfold admitsTo <;> infer_instance

end Bound

/-- `IndexField<V>`. Its pairs are sorted by key whenever it has them. -/
structure IndexField (V : Type) [LinearOrder V] where
  values : SortedMap V BitIndex
  size : Nat
  uniqueCount : Nat
  sortedValues : Option (List (V × Nat))
  sorted : ∀ l, sortedValues = some l → l.Pairwise (fun a b => a.1 ≤ b.1)

namespace IndexField

variable {V : Type} [LinearOrder V] {α : Type}

/-- `Default::default`: no rows, no pairs. -/
def default : IndexField V := ⟨SortedMap.empty, 0, 0, none, fun _ h => by cases h⟩

/-- The order `sort_by(|a, b| a.0.cmp(&b.0))` sorts the pairs by; Rust's
`sort_by` is stable, as `insertionSort` is. -/
def keyLe (a b : V × Nat) : Prop := a.1 ≤ b.1

instance : DecidableRel (keyLe (V := V)) := fun a b => inferInstanceAs (Decidable (a.1 ≤ b.1))

instance : Std.Total (keyLe (V := V)) := ⟨fun a b => le_total a.1 b.1⟩

instance : IsTrans (V × Nat) keyLe := ⟨fun _ _ _ => le_trans⟩

/-- `IndexField::build`. `values` pairs each row with its key; the rows of
each key, pushed in order, become its bitmap (`i as u32`). -/
def build (items : List α) (extractor : α → V) : IndexField V :=
  let size := items.length
  if size = 0 then default
  else
    let values : List (Nat × V) := items.zipIdx.map fun p => (p.2, extractor p.1)
    let sortedValues := (values.map fun p => (p.2, p.1)).insertionSort keyLe
    let valuesIndices := values.foldl (fun m p => m.push p.2 p.1) SortedMap.empty
    let indexes := valuesIndices.mapValues fun indices =>
      BitIndex.mk (bitmapOfIndices indices) size
    ⟨indexes, size, valuesIndices.entries.length, some sortedValues, fun l h => by
      cases h
      exact List.pairwise_insertionSort keyLe _⟩

/-- `get_bitmap`. -/
def getBitmap (self : IndexField V) (value : V) : Option RoaringBitmap :=
  (self.values.find? value).map (·.bitmap)

/-- `value_eq`. -/
def valueEq (self : IndexField V) (value : V) : Option RoaringBitmap := self.getBitmap value

/-- `if let Some(bitmap) = self.get_bitmap(value) { result |= bitmap }`. -/
def orBitmapOf (self : IndexField V) (result : RoaringBitmap) (value : V) : RoaringBitmap :=
  match self.getBitmap value with
  | some bitmap => result.union bitmap
  | none => result

/-- `if let Some(bitmap) = self.get_bitmap(value) { result -= bitmap }`. -/
def andNotBitmapOf (self : IndexField V) (result : RoaringBitmap) (value : V) : RoaringBitmap :=
  match self.getBitmap value with
  | some bitmap => result.diff bitmap
  | none => result

/-- `value_not_eq`. -/
def valueNotEq (self : IndexField V) (value : V) : Option RoaringBitmap :=
  some (self.andNotBitmapOf (fullBitmap self.size) value)

/-- `value_in`. -/
def valueIn (self : IndexField V) (values : List V) : Option RoaringBitmap :=
  some (values.foldl self.orBitmapOf SortedSet.empty)

/-- `value_not_in`. -/
def valueNotIn (self : IndexField V) (values : List V) : Option RoaringBitmap :=
  some (values.foldl self.andNotBitmapOf (fullBitmap self.size))

/-- The `while` loop of the `Included` end: from a position whose key is
`val`, walks to the last position of the run of `val`. -/
def lastOfRun (sorted : List (V × Nat)) (val : V) : (fuel last : Nat) → Nat
  | 0, last => last
  | fuel + 1, last =>
    match sorted[last + 1]? with
    | some p => if p.1 = val then lastOfRun sorted val fuel (last + 1) else last
    | none => last

/-- `sorted.binary_search_by(|(v, _)| v.cmp(val))`. -/
def searchKey (sorted : List (V × Nat)) (val : V) : Except Nat Nat :=
  BinarySearch.binarySearchBy sorted fun p => compare p.1 val

/-- The start position of `value_range_fast`. -/
def startIdx (sorted : List (V × Nat)) : Bound V → Nat
  | .included val =>
    match searchKey sorted val with
    | .ok idx => idx
    | .error idx => idx
  | .excluded val =>
    match searchKey sorted val with
    | .ok idx => idx + 1
    | .error idx => idx
  | .unbounded => 0

/-- The end position of `value_range_fast`. -/
def endIdx (sorted : List (V × Nat)) : Bound V → Nat
  | .included val =>
    match searchKey sorted val with
    | .ok idx => lastOfRun sorted val sorted.length idx + 1
    | .error idx => idx
  | .excluded val =>
    match searchKey sorted val with
    | .ok idx => idx
    | .error idx => idx
  | .unbounded => sorted.length

/-- `value_range_fast`: the rows of `sorted[start_idx..end_idx]`. -/
def valueRangeFast (self : IndexField V) (start stop : Bound V) : Option RoaringBitmap :=
  match self.sortedValues with
  | none => none
  | some sorted =>
    let s := startIdx sorted start
    let e := endIdx sorted stop
    if s ≥ e then some SortedSet.empty
    else some (bitmapOfIndices (((sorted.take e).drop s).map (·.2)))

/-- `value_range`: the fast path, or the union over `values.range((start, end))`. -/
def valueRange (self : IndexField V) (start stop : Bound V) : Option RoaringBitmap :=
  match self.valueRangeFast start stop with
  | some bitmap => some bitmap
  | none =>
    some <| (self.values.entries.filter fun e => start.admitsFrom e.1 ∧ stop.admitsTo e.1).foldl
      (fun result e => result.union e.2.bitmap) SortedSet.empty

/-- `value_gt`. -/
def valueGt (self : IndexField V) (threshold : V) : Option RoaringBitmap :=
  self.valueRange (.excluded threshold) .unbounded

/-- `value_gte`. -/
def valueGte (self : IndexField V) (threshold : V) : Option RoaringBitmap :=
  self.valueRange (.included threshold) .unbounded

/-- `value_lt`. -/
def valueLt (self : IndexField V) (threshold : V) : Option RoaringBitmap :=
  self.valueRange .unbounded (.excluded threshold)

/-- `value_lte`. -/
def valueLte (self : IndexField V) (threshold : V) : Option RoaringBitmap :=
  self.valueRange .unbounded (.included threshold)

/-- `value_range_inclusive`. -/
def valueRangeInclusive (self : IndexField V) (start stop : V) : Option RoaringBitmap :=
  self.valueRange (.included start) (.included stop)

/-- `value_range_exclusive`. -/
def valueRangeExclusive (self : IndexField V) (start stop : V) : Option RoaringBitmap :=
  self.valueRange (.included start) (.excluded stop)

end IndexField

/-- `IndexFieldError`. -/
inductive IndexFieldError
  | convertType (fieldType operation : String)
  | operationListEmpty
  | operationEq (fieldType : String)
  | operationNotEq (fieldType : String)
  | operationGt (fieldType : String)
  | operationGte (fieldType : String)
  | operationLt (fieldType : String)
  | operationLte (fieldType : String)
  | operationIn (fieldType : String)
  | operationNotIn (fieldType : String)
  | operationRange (fieldType : String)
  | operationUndefinedType (fieldType : String)
  deriving DecidableEq, Repr

/-- `ok_or_else`. -/
def okOr {ε β : Type} (o : Option β) (e : ε) : Except ε β :=
  match o with
  | some b => .ok b
  | none => .error e

/-- `IndexFieldEnum`: an index of one of the key types. -/
structure IndexFieldEnum (N : Numerics) where
  ty : FieldType
  idx : IndexField (ty.Carrier N)

namespace IndexFieldEnum

variable {N : Numerics}

/-- `IndexFieldEnum::len`. -/
def len (self : IndexFieldEnum N) : Nat := self.idx.size

/-- `type_name`. -/
def typeName (self : IndexFieldEnum N) : String := self.ty.typeName

/-- The arms of `filter_operation` for the operations on one value: convert
it, run the query, and name the operation in the errors. -/
def singleValue {V : Type} (typeName opName : String) (err : String → IndexFieldError)
    (convert : FieldValue N → Option V) (query : V → Option RoaringBitmap) (value : FieldValue N) :
    Except IndexFieldError RoaringBitmap :=
  match convert value with
  | some converted => okOr (query converted) (err typeName)
  | none => .error (.convertType typeName opName)

/-- `filter_operation`, as the macro expands it for every key type. `NotIn`
reports its errors as `OperationIn`, and `Range` names `"lte"` when a bound
does not convert, as the source does. -/
def filterOperation (self : IndexFieldEnum N) (operation : FieldOperation N) :
    Except IndexFieldError RoaringBitmap :=
  let t := self.ty.typeName
  let convert := self.ty.convert (N := N)
  match operation with
  | .eq value => singleValue t "eq" .operationEq convert self.idx.valueEq value
  | .notEq value => singleValue t "not_eq" .operationNotEq convert self.idx.valueNotEq value
  | .gt value => singleValue t "gt" .operationGt convert self.idx.valueGt value
  | .gte value => singleValue t "gte" .operationGte convert self.idx.valueGte value
  | .lt value => singleValue t "lt" .operationLt convert self.idx.valueLt value
  | .lte value => singleValue t "lte" .operationLte convert self.idx.valueLte value
  | .inValues values =>
    let typedValues := values.filterMap convert
    if typedValues.isEmpty then .error (.operationIn t)
    else okOr (self.idx.valueIn typedValues) (.operationIn t)
  | .notInValues values =>
    let typedValues := values.filterMap convert
    if typedValues.isEmpty then .error (.operationIn t)
    else okOr (self.idx.valueNotIn typedValues) (.operationIn t)
  | .range start stop =>
    match convert start, convert stop with
    | some s, some e => okOr (self.idx.valueRangeInclusive s e) (.operationRange t)
    | _, _ => .error (.convertType t "lte")

/-- `filter_operations`: the first operation's bitmap, then each later one
combined into it by its `Op`, whose bitmap is computed (and may fail) even
for `Invert`, which ignores it. The first `Op` is not read. -/
def filterOperations (self : IndexFieldEnum N) (operations : List (FieldOperation N × Op)) :
    Except IndexFieldError RoaringBitmap :=
  match operations with
  | [] => .error .operationListEmpty
  | (first, _) :: rest => do
    let result ← self.filterOperation first
    rest.foldlM (fun result p => do
      let bitmap ← self.filterOperation p.1
      pure (p.2.apply self.len result bitmap)) result

end IndexFieldEnum

end TreeMan
