import Mathlib
import TreeMan.Proof.IndexPositions
import TreeMan.Proof.Narrowing

/-!
# The index path keeps the rows the scan keeps

`filter_by_field_ops` and `filter_by_fields_ops` answer through the field
indexes when `need_to_use_index` says so, and else scan the current rows
with `build_field_predicate`. The statistics behind that choice are left out
of the model (the Bool `efficient`), so what matters is that the choice does
not change the rows kept. On an `Owned` view it does not, for indexes built
over the rows of the source that answer their operations as the scan does:

* `AnswersExactly`: a field index with its extractor answers a list of
  operations as `evaluate_field_operations` does;
* `ExactChain.answersExactly`: an index built over the source answers so a
  chain that starts with `And` and goes on with `And` and `AndNot`, each of
  whose operations it answers exactly (`rowsWhere_singleValue`);
* `mem_combineFieldBitmaps`: the intersection `do_filter_by_fields_ops`
  builds from such bitmaps holds the rows of which `build_field_predicate`
  holds;
* `OwnedWf.applyFieldBitmap_eq_filter`: a bitmap of the rows a predicate
  holds of makes `apply_field_bitmap` push what `filter` pushes;
* `filterByFieldOps_keeps_scan_rows`, `filterByFieldsOps_keeps_scan_rows`:
  whatever `need_to_use_index` decides, a successful call leaves the storage
  the scan leaves.

An index built over a narrowed view answers positions of that view, which
the index path reads as positions of the source: there the two paths part
(`field_paths_disagree_after_filter`).
-/

namespace TreeMan

namespace IndexField

variable {α V : Type} {items : List α} {e : α → V} {P : V → Prop} {b : RoaringBitmap}

/-- Below `2³²` rows, a bitmap that answers `P` holds a position exactly
when it is a row whose key `P` holds of. -/
theorem RowsWhere.mem_iff (hn : items.length < 2 ^ 32) (hb : RowsWhere items e P b) (x : Nat) :
    x ∈ b ↔ ∃ h : x < items.length, P (e items[x]) := by
  constructor
  · intro hx
    have hlt := hb.lt_length hn hx
    exact ⟨hlt, (hb.mem_row hn hlt).mp hx⟩
  · rintro ⟨hlt, hp⟩
    exact (hb.mem_row hn hlt).mpr hp

end IndexField

namespace FieldType

variable {N : Numerics} {t : FieldType}

/-- The key types `filter_operation` answers exactly: the integer types and
`String` for every operation, `bool` for those that only test equality. -/
theorem keyExact_of_keyType {op : FieldOperation N}
    (hty : t.IsInteger ∨ t = .string ∨ (t = .bool ∧ op.IsEquality)) :
    t.Exact N ∨ (t.EqExact N ∧ op.IsEquality) := by
  rcases hty with hi | rfl | ⟨rfl, heq⟩
  · exact .inl (exact_of_isInteger hi)
  · exact .inl exact_string
  · exact .inr ⟨eqExact_bool, heq⟩

end FieldType

namespace FilterData

variable {N : Numerics} {T : Type}

/-! ### Indexes that answer as the scan does -/

/-- A field index with its extractor answers `operations` over `rows` as
the scan does: every bitmap `apply_field_operations` gives holds the rows of
which `evaluate_field_operations` holds on the extracted value. -/
def AnswersExactly (rows : List T) (field : IndexFieldEnum N × (T → FieldValue N))
    (operations : List (FieldOperation N × Op)) : Prop :=
  ∀ b, applyFieldOperations field.1 operations = .ok b →
    ∀ x, x ∈ b ↔ ∃ h : x < rows.length, evaluateFieldOperations (field.2 rows[x]) operations = true

/-- A chain of operations that an index with key type `t`, built over `rows`
with extractor `e`, answers as the scan does: it starts with `And` and goes
on with `And` and `AndNot`, where `filter_operations` and the scan's early
exits agree; and each operation alone is answered exactly: its key type, its
values converting, and distinct keys for the queries that start at the run
of a threshold. -/
structure ExactChain (t : FieldType) (rows : List T) (e : T → t.Carrier N)
    (operations : List (FieldOperation N × Op)) : Prop where
  andFirst : ∃ first rest, operations = (first, .and) :: rest ∧ Conjunctive rest
  keyType : ∀ p ∈ operations, t.IsInteger ∨ t = .string ∨ (t = .bool ∧ p.1.IsEquality)
  convert : ∀ p ∈ operations, ∀ v ∈ p.1.values, (t.convert v).isSome
  distinct : ∀ p ∈ operations, p.1.StartsAtRun → (rows.map e).Nodup

theorem ExactChain.ne_nil {t : FieldType} {rows : List T} {e : T → t.Carrier N}
    {operations : List (FieldOperation N × Op)} (hc : ExactChain t rows e operations) :
    operations ≠ [] := by
  obtain ⟨first, rest, rfl, -⟩ := hc.andFirst
  exact List.cons_ne_nil _ _

open IndexField in
/-- An index built over the rows answers an exact chain as the scan does:
`filter_operation` for one operation, `filter_operations` for more, both
the Boolean fold of the chain on each row, which the scan computes. -/
theorem ExactChain.answersExactly {t : FieldType} {rows : List T} {e : T → t.Carrier N}
    {operations : List (FieldOperation N × Op)} (hc : ExactChain t rows e operations)
    (hn : rows.length < 2 ^ 32) :
    AnswersExactly rows (⟨t, build rows e⟩, fun x => t.toValue (e x)) operations := by
  obtain ⟨first, rest, rfl, hconj⟩ := hc.andFirst
  have hexact : ∀ p ∈ (first, Op.and) :: rest, ∀ b,
      (IndexFieldEnum.mk t (build rows e)).filterOperation p.1 = .ok b →
        RowsWhere rows e (fun k => p.1.evaluate (t.toValue k) = true) b :=
    fun p hp _ hb => rowsWhere_singleValue hn (FieldType.keyExact_of_keyType (hc.keyType p hp))
      (hc.convert p hp) (hc.distinct p hp) hb
  have hrows : ∀ b, applyFieldOperations ⟨t, build rows e⟩ ((first, .and) :: rest) = .ok b →
      RowsWhere rows e (fun k => foldOperations (t.toValue k) ((first, .and) :: rest) = true) b := by
    intro b hb
    unfold applyFieldOperations at hb
    rw [Except.mapError_eq_ok] at hb
    split at hb
    · rename_i operation hsingle
      obtain ⟨rfl, rfl⟩ := List.cons_eq_cons.mp hsingle
      exact hexact _ List.mem_cons_self b hb
    · exact rowsWhere_filterOperations hn hexact hb
  intro b hb x
  rw [(hrows b hb).mem_iff hn x]
  simp only [evaluateFieldOperations_eq_foldOperations _ first hconj]

/-- The index `name` of the view is a field index built over `rows` that
answers `operations` as the scan does. -/
def ExactFieldIndex (s : FilterData N T) (rows : List T) (name : String)
    (operations : List (FieldOperation N × Op)) : Prop :=
  ∃ (t : FieldType) (e : T → t.Carrier N),
    s.indexes name = some (.field ⟨t, IndexField.build rows e⟩ fun x => t.toValue (e x)) ∧
      ExactChain t rows e operations

theorem ExactFieldIndex.answersExactly {s : FilterData N T} {rows : List T} {name name' : String}
    {operations : List (FieldOperation N × Op)} (h : s.ExactFieldIndex rows name operations)
    (hn : rows.length < 2 ^ 32) {index : IndexType N T} {r : IndexFieldEnum N × (T → FieldValue N)}
    (hget : s.getIndex name = .ok index) (hof : fieldIndexOf name' index = .ok r) :
    AnswersExactly rows r operations := by
  obtain ⟨t, e, hidx, hc⟩ := h
  simp only [getIndex, hidx, Except.ok.injEq] at hget
  subst hget
  simp only [fieldIndexOf, IndexType.asField, Except.ok.injEq] at hof
  subst hof
  exact hc.answersExactly hn

/-! ### The bitmap of several fields -/

theorem buildFieldPredicate_cons (f : (T → FieldValue N) × List (FieldOperation N × Op))
    (fields : List ((T → FieldValue N) × List (FieldOperation N × Op))) (item : T) :
    buildFieldPredicate (f :: fields) item =
      (evaluateFieldOperations (f.1 item) f.2 && buildFieldPredicate fields item) := by
  simp only [buildFieldPredicate, List.all_cons]

/-- The loop of `do_filter_by_fields_ops`, over fields whose indexes answer
exactly, keeps the rows within the bitmap it started from of which every
field's operations hold; a field without operations holds of every row.
The bitmap carried on is the field's, or its intersection with the one so
far. -/
theorem mem_combineFieldBitmaps (opText : FieldOperation N → String) {rows : List T} :
    ∀ {fields : List ((String × List (FieldOperation N × Op)) × (IndexFieldEnum N × (T → FieldValue N)))}
      {combined : Option RoaringBitmap} {descriptions : List String} {b : RoaringBitmap}
      {ds : List String},
      (∀ f ∈ fields, AnswersExactly rows f.2 f.1.2) →
      (∀ c, combined = some c → ∀ x ∈ c, x < rows.length) →
      combineFieldBitmaps opText (fields.map fun f => (f.1.1, f.2.1, f.1.2)) combined descriptions =
        .ok (some b, ds) →
      ∀ x, x ∈ b ↔ (∀ c, combined = some c → x ∈ c) ∧
        ∃ h : x < rows.length, buildFieldPredicate (fields.map fun f => (f.2.2, f.1.2)) rows[x] = true
  | [], combined, descriptions, b, ds, _, hc, h => by
    simp only [List.map_nil, combineFieldBitmaps, Except.ok.injEq, Prod.mk.injEq] at h
    obtain ⟨rfl, -⟩ := h
    intro x
    simp only [Option.some.injEq, forall_eq', List.map_nil, buildFieldPredicate, List.all_nil]
    exact ⟨fun hx => ⟨hx, hc b rfl x hx, trivial⟩, fun hx => hx.1⟩
  | ((name, operations), field) :: rest, combined, descriptions, b, ds, hex, hc, h => by
    have hrest : ∀ f ∈ rest, AnswersExactly rows f.2 f.1.2 :=
      fun f hf => hex f (List.mem_cons_of_mem _ hf)
    simp only [List.map_cons, combineFieldBitmaps] at h
    split_ifs at h with hops
    · rw [List.isEmpty_iff] at hops
      subst hops
      intro x
      rw [mem_combineFieldBitmaps opText hrest hc h x]
      simp only [List.map_cons, buildFieldPredicate_cons, evaluateFieldOperations,
        evaluateFieldOperationsFrom, Bool.true_and]
    · split at h
      · cases h
      · rename_i fieldBitmap hfb
        have hfield := hex _ List.mem_cons_self fieldBitmap hfb
        obtain ⟨next, ds', hnext, h⟩ : ∃ (next : RoaringBitmap) (ds' : List String),
            (∀ x, x ∈ next ↔ (∀ c, combined = some c → x ∈ c) ∧ x ∈ fieldBitmap) ∧
              combineFieldBitmaps opText (rest.map fun f => (f.1.1, f.2.1, f.1.2)) (some next) ds' =
                .ok (some b, ds) := by
          cases combined with
          | none => exact ⟨fieldBitmap, _, by simp, h⟩
          | some existing => exact ⟨existing.inter fieldBitmap, _, by simp, h⟩
        have hlt : ∀ c, some next = some c → ∀ y ∈ c, y < rows.length := by
          rintro c ⟨⟩ y hy
          exact ((hfield y).mp ((hnext y).mp hy).2).1
        intro x
        rw [mem_combineFieldBitmaps opText hrest hlt h x]
        simp only [Option.some.injEq, forall_eq', hnext, hfield x, List.map_cons,
          buildFieldPredicate_cons, Bool.and_eq_true]
        constructor
        · rintro ⟨⟨hcomb, hlt, hop⟩, _, hrest'⟩
          exact ⟨hcomb, hlt, hop, hrest'⟩
        · rintro ⟨hcomb, hlt, hop, hrest'⟩
          exact ⟨⟨hcomb, hlt, hop⟩, hlt, hrest'⟩

/-! ### The index path against `filter` -/

variable {s s₁ : FilterData N T} {o : OwnedStorage T}

/-- `apply_field_bitmap` keeps the current positions in the field's bitmap,
in order. -/
theorem OwnedWf.toIndices_maskedBitmap (hw : s.OwnedWf o) (ho : s.storage = .owned o)
    (hn : o.source.length ≤ 2 ^ 32) {b : RoaringBitmap} (hb : ∀ x ∈ b, x < o.source.length) :
    toIndices (s.maskedBitmap b).1 = o.currentIndices.filter fun x => decide (x ∈ b) :=
  List.Pairwise.eq_of_mem_iff (s.maskedBitmap b).1.sorted (hw.storage.current.sorted.filter _)
    fun x => by
      rw [List.mem_filter, decide_eq_true_eq, ← hw.mem_maskedBitmap ho hn hb x]
      rfl

/-- A successful `apply_field_bitmap` on an `Owned` view: the history had
room, the masked bitmap is not empty, and its positions were pushed. -/
theorem applyFieldBitmap_ok_owned (ho : s.storage = .owned o) {b : RoaringBitmap}
    {description : String} (h : s.applyFieldBitmap b description = .ok s₁) :
    ¬ o.levels.length > maxHistory ∧ toIndices (s.maskedBitmap b).1 ≠ [] ∧
      s₁.storage = .owned (o.pushLevel (toIndices (s.maskedBitmap b).1)) := by
  unfold applyFieldBitmap at h
  split_ifs at h
  have hm := maskedBitmap_snd (s := s) b
  rcases hsplit : s.maskedBitmap b with ⟨finalBitmap, s'⟩
  rw [hsplit] at hm h
  dsimp only at h
  split_ifs at h with hempty
  have ho' : s'.storage = .owned o := hm.storage.trans ho
  unfold applyFilteredItemsWithBitmap applyOwnedData at h
  simp only [ho'] at h
  split_ifs at h with hlev
  cases h
  refine ⟨hlev, fun hnil => hempty ?_, rfl⟩
  rw [SortedSet.isEmpty, ← List.isEmpty_iff] at *
  exact hnil

/-- `filter` on an `Owned` view with room in its history pushes the current
positions whose row satisfies the predicate, when there are some. -/
theorem filter_ok_owned (ho : s.storage = .owned o) (hl : ¬ o.levels.length > maxHistory)
    {predicate : T → Bool} (hne : keepMatching o.source predicate o.currentIndices ≠ []) :
    ∃ s₂, s.filter predicate = .ok s₂ ∧
      s₂.storage = .owned (o.pushLevel (keepMatching o.source predicate o.currentIndices)) := by
  have hne' : (keepMatching o.source predicate o.currentIndices).isEmpty = false := by
    simpa using hne
  refine ⟨({ s with storage := .owned (o.pushLevel (keepMatching o.source predicate o.currentIndices)),
                    sourceIndicesMask := none }).updateLevelMetadata s.currentLevel "Filtered", ?_, rfl⟩
  simp only [filter, applyFilteredItems, applyFilteredIndices, ho, hl, hne', if_false,
    Bool.false_eq_true]

/-- A bitmap that holds the rows a predicate holds of makes
`apply_field_bitmap` push what `filter` with the predicate pushes: the scan
keeps the current positions the bitmap holds. -/
theorem OwnedWf.applyFieldBitmap_eq_filter (hw : s.OwnedWf o) (ho : s.storage = .owned o)
    (hn : o.source.length ≤ 2 ^ 32) {b : RoaringBitmap} {predicate : T → Bool}
    (hb : ∀ x, x ∈ b ↔ ∃ h : x < o.source.length, predicate o.source[x] = true)
    {description : String} (h : s.applyFieldBitmap b description = .ok s₁) :
    ∃ s₂, s.filter predicate = .ok s₂ ∧ s₂.storage = s₁.storage := by
  obtain ⟨hhist, hne, hst⟩ := applyFieldBitmap_ok_owned ho h
  have hkeep : keepMatching o.source predicate o.currentIndices = toIndices (s.maskedBitmap b).1 := by
    rw [hw.toIndices_maskedBitmap ho hn fun x hx => ((hb x).mp hx).1, keepMatching]
    refine List.filter_congr fun i hi => ?_
    have hlt := hw.storage.current.lt i hi
    simp [hb, hlt]
  obtain ⟨s₂, hs₂, hst₂⟩ := filter_ok_owned ho hhist (hkeep ▸ hne)
  exact ⟨s₂, hs₂, by rw [hst₂, hst, hkeep]⟩

/-- The index path of `do_filter_by_fields_ops`, over fields whose indexes
answer exactly, pushes what `filter` with `build_field_predicate` pushes. -/
theorem OwnedWf.doFilterByFieldsOps_eq_filter (opText : FieldOperation N → String)
    (hw : s.OwnedWf o) (ho : s.storage = .owned o) (hn : o.source.length < 2 ^ 32)
    {fields : List ((String × List (FieldOperation N × Op)) × (IndexFieldEnum N × (T → FieldValue N)))}
    (hex : ∀ f ∈ fields, AnswersExactly o.source f.2 f.1.2)
    (h : s.doFilterByFieldsOps opText (fields.map fun f => (f.1.1, f.2.1, f.1.2)) = .ok s₁) :
    ∃ s₂, s.filter (buildFieldPredicate (fields.map fun f => (f.2.2, f.1.2))) = .ok s₂ ∧
      s₂.storage = s₁.storage := by
  unfold doFilterByFieldsOps at h
  split_ifs at h
  split at h
  · cases h
  · cases h
  · rename_i b descriptions hcomb
    refine hw.applyFieldBitmap_eq_filter ho hn.le (fun x => ?_) h
    rw [mem_combineFieldBitmaps opText hex (fun c hc => by cases hc) hcomb x]
    simp

theorem needToUseIndex_false (s : FilterData N T) : s.needToUseIndex false = false := by
  simp [needToUseIndex]

/-- Each resolved field of `filter_by_fields_ops` is the index of its name,
which answers its operations exactly; the fields are the first components of
the pairs that were resolved. -/
theorem answersExactly_of_resolved {rows : List T}
    {fields : List (String × List (FieldOperation N × Op))}
    (hidx : ∀ f ∈ fields, s.ExactFieldIndex rows f.1 f.2) (hn : rows.length < 2 ^ 32)
    {indexes : List (IndexType N T)} {resolved : List (IndexFieldEnum N × (T → FieldValue N))}
    (hindexes : fields.mapM (fun f => s.getIndex f.1) = .ok indexes)
    (hresolved : (fields.zip indexes).mapM (fun p => fieldIndexOf p.1.1 p.2) = .ok resolved) :
    ∀ p ∈ fields.zip resolved, AnswersExactly rows p.2 p.1.2 := by
  have hlen : fields.length = indexes.length := (Except.forall₂_of_mapM_eq_ok hindexes).length_eq
  have hfields : fields = (fields.zip indexes).map Prod.fst := (List.map_fst_zip hlen.le).symm
  intro p hp
  rw [hfields, List.zip_map_left, List.mem_map] at hp
  obtain ⟨q, hq, rfl⟩ := hp
  have hq₁ := (List.of_mem_zip hq).1
  exact (hidx q.1.1 (List.of_mem_zip hq₁).1).answersExactly hn
    (Except.zip_of_mapM_eq_ok hindexes q.1 hq₁) (Except.zip_of_mapM_eq_ok hresolved q hq)

/-! ### Whatever `need_to_use_index` decides -/

section Runs

variable (lower : List Char → List Char) (opText : FieldOperation N → String)

/-- On every `Owned` view a run of calls reaches over fewer than `2^32`
rows, `filter_by_field_ops` on a field index built over the source rows,
with a chain of operations it answers as the scan does, leaves on success
the storage (current positions, levels and cache) that the scan leaves,
whatever `need_to_use_index` decides. -/
theorem filterByFieldOps_keeps_scan_rows {name : String} {operations : List (FieldOperation N × Op)}
    {efficient : Bool} (hr : s.Reachable lower opText) (ho : s.storage = .owned o)
    (hn : o.source.length < 2 ^ 32) (hidx : s.ExactFieldIndex o.source name operations)
    (h : s.filterByFieldOps opText name operations efficient = .ok s₁) :
    ∃ s₂, s.filterByFieldOps opText name operations false = .ok s₂ ∧ s₂.storage = s₁.storage := by
  have hw := ownedViewWf_of_reachable lower opText hr o ho hn
  have hne : operations ≠ [] := by
    obtain ⟨t, e, -, hc⟩ := hidx
    exact hc.ne_nil
  rw [filterByFieldOps_of_not_needToUseIndex hne (needToUseIndex_false s)]
  cases hu : s.needToUseIndex efficient with
  | false =>
    rw [filterByFieldOps_of_not_needToUseIndex hne hu] at h
    exact ⟨s₁, h, rfl⟩
  | true =>
    rw [filterByFieldOps_of_needToUseIndex hne hu] at h
    unfold indexPath at h
    unfold scanPath
    split at h
    · cases h
    · rename_i fieldIndex extractor hfield
      obtain ⟨index, hgi, hof⟩ := Except.bind_eq_ok.mp hfield
      have hex : ∀ f ∈ [((name, operations), (fieldIndex, extractor))],
          AnswersExactly o.source f.2 f.1.2 := by
        intro f hf
        rw [List.mem_singleton] at hf
        subst hf
        exact hidx.answersExactly hn hgi hof
      exact hw.doFilterByFieldsOps_eq_filter opText ho hn hex h

/-- The rows `5` and `7`, with a field index `v` created over them. -/
def fieldIndexOnSource : FilterData Numerics.exactRat U64 :=
  ((fromVec [⟨5, by decide⟩, ⟨7, by decide⟩]).createFieldIndex "v" .u64 id).ok?.getD (fromVec [])

theorem reachable_fieldIndexOnSource : fieldIndexOnSource.Reachable id (fun _ => "") :=
  .step (.init (.inl ⟨_, rfl⟩)) ⟨.createFieldIndex "v" .u64 id, .inl rfl⟩

theorem exactFieldIndex_fieldIndexOnSource {operations : List (FieldOperation Numerics.exactRat × Op)}
    (hc : ExactChain .u64 [⟨5, by decide⟩, ⟨7, by decide⟩] id operations) :
    fieldIndexOnSource.ExactFieldIndex [⟨5, by decide⟩, ⟨7, by decide⟩] "v" operations :=
  ⟨.u64, id, rfl, hc⟩

/-- One equality on the index `v` of the rows `5` and `7`. -/
theorem filterByFieldOps_keeps_scan_rows_on_source :
    fieldIndexOnSource.Reachable id (fun _ => "") ∧
      fieldIndexOnSource.ExactFieldIndex [⟨5, by decide⟩, ⟨7, by decide⟩] "v"
        [(.eq (.u64 ⟨7, by decide⟩), .and)] ∧
      ∃ s₂, fieldIndexOnSource.filterByFieldOps (fun _ => "") "v"
          [(.eq (.u64 ⟨7, by decide⟩), .and)] false = .ok s₂ ∧
        s₂.storage = ((fieldIndexOnSource.filterByFieldOps (fun _ => "") "v"
          [(.eq (.u64 ⟨7, by decide⟩), .and)] true).ok?.getD fieldIndexOnSource).storage := by
  have hidx : fieldIndexOnSource.ExactFieldIndex [⟨5, by decide⟩, ⟨7, by decide⟩] "v"
      [(.eq (.u64 ⟨7, by decide⟩), .and)] := exactFieldIndex_fieldIndexOnSource
    ⟨⟨_, [], rfl, fun _ h => absurd h List.not_mem_nil⟩, fun _ _ => .inl (by simp [FieldType.IsInteger]),
      by decide, fun _ _ _ => by decide⟩
  have h : fieldIndexOnSource.filterByFieldOps (fun _ => "") "v" [(.eq (.u64 ⟨7, by decide⟩), .and)] true =
      .ok ((fieldIndexOnSource.filterByFieldOps (fun _ => "") "v"
        [(.eq (.u64 ⟨7, by decide⟩), .and)] true).ok?.getD fieldIndexOnSource) := rfl
  exact ⟨reachable_fieldIndexOnSource, hidx,
    filterByFieldOps_keeps_scan_rows id (fun _ => "")
      (o := ⟨[⟨5, by decide⟩, ⟨7, by decide⟩], [0, 1], some [⟨5, by decide⟩, ⟨7, by decide⟩], [0, 1],
        [[⟨5, by decide⟩, ⟨7, by decide⟩]], [[0, 1]]⟩)
      reachable_fieldIndexOnSource rfl (by simp) hidx h⟩

/-- On every `Owned` view a run of calls reaches over fewer than `2^32`
rows, `filter_by_fields_ops` on field indexes built over the source rows,
each with a chain of operations it answers as the scan does, leaves on
success the storage the scan leaves, whatever `need_to_use_index` decides:
only the index path differs from the scan, and there every resolved index
answers its operations exactly. -/
theorem filterByFieldsOps_keeps_scan_rows {fields : List (String × List (FieldOperation N × Op))}
    {efficient : Bool} (hr : s.Reachable lower opText) (ho : s.storage = .owned o)
    (hn : o.source.length < 2 ^ 32) (hidx : ∀ f ∈ fields, s.ExactFieldIndex o.source f.1 f.2)
    (h : s.filterByFieldsOps opText fields efficient = .ok s₁) :
    ∃ s₂, s.filterByFieldsOps opText fields false = .ok s₂ ∧ s₂.storage = s₁.storage := by
  have hw := ownedViewWf_of_reachable lower opText hr o ho hn
  unfold filterByFieldsOps at h ⊢
  simp only [needToUseIndex_false, Bool.false_eq_true, if_false]
  split at h
  · cases h
  · rename_i hempty
    rw [if_neg hempty]
    split at h
    · cases h
    · rename_i indexes hindexes
      split at h
      · cases h
      · rename_i resolved hresolved
        split at h
        · exact hw.doFilterByFieldsOps_eq_filter opText ho hn
            (answersExactly_of_resolved hidx hn hindexes hresolved) h
        · exact ⟨s₁, h, rfl⟩

/-- A bound and an inequality on the index `v` of the rows `5` and `7`. -/
theorem filterByFieldsOps_keeps_scan_rows_on_source :
    fieldIndexOnSource.Reachable id (fun _ => "") ∧
      (∀ f ∈ [("v", [(FieldOperation.gt (.u64 ⟨4, by decide⟩), Op.and)]),
          ("v", [(.notEq (.u64 ⟨5, by decide⟩), .and)])],
        fieldIndexOnSource.ExactFieldIndex [⟨5, by decide⟩, ⟨7, by decide⟩] f.1 f.2) ∧
      ∃ s₂, fieldIndexOnSource.filterByFieldsOps (fun _ => "")
          [("v", [(.gt (.u64 ⟨4, by decide⟩), .and)]), ("v", [(.notEq (.u64 ⟨5, by decide⟩), .and)])]
          false = .ok s₂ ∧
        s₂.storage = ((fieldIndexOnSource.filterByFieldsOps (fun _ => "")
          [("v", [(.gt (.u64 ⟨4, by decide⟩), .and)]), ("v", [(.notEq (.u64 ⟨5, by decide⟩), .and)])]
          true).ok?.getD fieldIndexOnSource).storage := by
  have hidx : ∀ f ∈ [("v", [(FieldOperation.gt (.u64 ⟨4, by decide⟩), Op.and)]),
      ("v", [(.notEq (.u64 ⟨5, by decide⟩), .and)])],
      fieldIndexOnSource.ExactFieldIndex [⟨5, by decide⟩, ⟨7, by decide⟩] f.1 f.2 := by
    intro f hf
    simp only [List.mem_cons, List.not_mem_nil, or_false] at hf
    rcases hf with rfl | rfl <;>
      exact exactFieldIndex_fieldIndexOnSource ⟨⟨_, [], rfl, fun _ h => absurd h List.not_mem_nil⟩,
        fun _ _ => .inl (by simp [FieldType.IsInteger]), by decide, fun _ _ _ => by decide⟩
  have h : fieldIndexOnSource.filterByFieldsOps (fun _ => "")
      [("v", [(.gt (.u64 ⟨4, by decide⟩), .and)]), ("v", [(.notEq (.u64 ⟨5, by decide⟩), .and)])] true =
      .ok ((fieldIndexOnSource.filterByFieldsOps (fun _ => "")
        [("v", [(.gt (.u64 ⟨4, by decide⟩), .and)]), ("v", [(.notEq (.u64 ⟨5, by decide⟩), .and)])]
        true).ok?.getD fieldIndexOnSource) := rfl
  exact ⟨reachable_fieldIndexOnSource, hidx,
    filterByFieldsOps_keeps_scan_rows id (fun _ => "")
      (o := ⟨[⟨5, by decide⟩, ⟨7, by decide⟩], [0, 1], some [⟨5, by decide⟩, ⟨7, by decide⟩], [0, 1],
        [[⟨5, by decide⟩, ⟨7, by decide⟩]], [[0, 1]]⟩)
      reachable_fieldIndexOnSource rfl (by simp) hidx h⟩

end Runs

end FilterData

end TreeMan
