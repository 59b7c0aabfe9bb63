import Mathlib
import TreeMan.Impl.Filter

/-!
# Positions of an index and positions of the view

`create_field_index` and `create_text_index` build over the rows of
`items()`, so an index answers positions into the view it was created on.
The index path of a filtering call reads them as positions into the parent
rows, which they are only while the view is every row of the parent:

* `filterByFieldOps_of_needToUseIndex`, `filterByFieldOps_of_not_needToUseIndex`:
  `filter_by_field_ops` runs the index path (`indexPath`) or the scan path
  (`scanPath`);
* `field_paths_disagree_after_filter`: after a filter, the index path keeps
  another row than the scan path;
* `text_search_after_filter_keeps_wrong_row`: after a filter, a text search
  keeps a row whose text does not hold the query.
-/

namespace TreeMan

namespace FilterData

variable {N : Numerics} {T : Type}

/-! ### The two paths of `filter_by_field_ops` -/

/-- The index path of `filter_by_field_ops`: the bitmap of the operations on
the field index, through `do_filter_by_fields_ops`. -/
def indexPath (opText : FieldOperation N → String) (s : FilterData N T) (name : String)
    (operations : List (FieldOperation N × Op)) : Outcome (FilterData N T) :=
  match s.getIndex name >>= fieldIndexOf name with
  | .error err => .err err s
  | .ok (fieldIndex, _) => s.doFilterByFieldsOps opText [(name, fieldIndex, operations)]

/-- The scan path of `filter_by_field_ops`: `filter` with the predicate of
the index's extractor. -/
def scanPath (s : FilterData N T) (name : String) (operations : List (FieldOperation N × Op)) :
    Outcome (FilterData N T) :=
  match s.getIndex name >>= fieldIndexOf name with
  | .error err => .err err s
  | .ok (_, extractor) => s.filter (buildFieldPredicate [(extractor, operations)])

variable {opText : FieldOperation N → String} {s : FilterData N T} {name : String}
  {operations : List (FieldOperation N × Op)} {efficient : Bool}

theorem filterByFieldOps_of_needToUseIndex (hne : operations ≠ [])
    (h : s.needToUseIndex efficient = true) :
    s.filterByFieldOps opText name operations efficient = s.indexPath opText name operations := by
  unfold filterByFieldOps indexPath
  rw [if_neg (by simpa using hne)]
  cases s.getIndex name >>= fieldIndexOf name
  · rfl
  · simp only [h, if_true]

theorem filterByFieldOps_of_not_needToUseIndex (hne : operations ≠ [])
    (h : s.needToUseIndex efficient = false) :
    s.filterByFieldOps opText name operations efficient = s.scanPath name operations := by
  unfold filterByFieldOps scanPath
  rw [if_neg (by simpa using hne)]
  cases s.getIndex name >>= fieldIndexOf name
  · rfl
  · simp only [h, Bool.false_eq_true, if_false]

end FilterData

open FilterData

/-! ### A view narrowed before the index was built -/

/-- The rows `[10, 20, 30]`, a filter that drops the first, and a field index
`v` created on the two rows left. -/
def fieldIndexAfterFilter : Option (FilterData Numerics.exactRat U64) :=
  ((fromVec [⟨10, by decide⟩, ⟨20, by decide⟩, ⟨30, by decide⟩]).filter
    fun x => decide (x.1 ≠ 10)).ok?.bind fun s => (s.createFieldIndex "v" .u64 id).ok?

/-- An equality with the third row's value: the index answers the position
of `30` among the two rows, `1`, which the index path keeps as the source
position of `20`; the scan path keeps the position of `30`, `2`. -/
theorem field_paths_disagree_after_filter :
    (fieldIndexAfterFilter.bind fun s =>
        (s.indexPath (fun _ => "") "v" [(.eq (.u64 ⟨30, by decide⟩), .and)]).ok?).map
        currentIndices = some [1] ∧
      (fieldIndexAfterFilter.bind fun s =>
        (s.scanPath "v" [(.eq (.u64 ⟨30, by decide⟩), .and)]).ok?).map currentIndices =
        some [2] := by
  decide

/-- The texts `a`, `b`, `c`, a filter that drops the first, and a text index
`t` created on the two texts left. -/
def textIndexAfterFilter : Option (FilterData Numerics.exactRat (List Char)) :=
  ((fromVec [['a'], ['b'], ['c']]).filter fun x => decide (x ≠ ['a'])).ok?.bind
    fun s => (s.createTextIndex (List.map Char.toLower) "t" id).ok?

/-- A search for the third text: the index answers the position of `c` among
the two rows, `1`, which `search_with_text` keeps as the source position of
`b`. -/
theorem text_search_after_filter_keeps_wrong_row :
    (textIndexAfterFilter.map fun s => s.items.1) = some [['b'], ['c']] ∧
      ((textIndexAfterFilter.bind fun s =>
        (s.searchWithText (List.map Char.toLower) "t" ['c']).ok?).map fun s => s.items.1) =
        some [['b']] := by
  decide

end TreeMan
