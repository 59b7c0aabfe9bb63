import Mathlib
import TreeMan.Impl.Filter
import TreeMan.Proof.IndexQuery

/-!
# A typed index query against `FieldOperation::evaluate`

`filter_operation` converts the values of an operation to the key type of
the index and answers with the key type's own order; `evaluate` compares
`FieldValue`s with their hand-written `eq`, `gt` and `gte`. The two agree on
a key type that orders its keys as `FieldValue` does (`FieldType.Exact`: the
integer types, `String` and `Decimal`, `exact_of_isInteger`, `exact_string`,
`exact_decimal`), and on
`bool` for the operations that only test equality (`FieldType.EqExact`).
`rowsWhere_singleValue` says that there a query that succeeds answers
exactly the rows the operation holds of, when its values convert, the rows
fit `u32` and, for the queries that start at the run of a threshold
(`FieldOperation.StartsAtRun`), no two rows share a key.

Outside these bounds the two differ: a `bool` index answers `Gt(false)` with
the rows of `true`, which `evaluate` never holds of (`gt_bool`).

Several operations: `filter_operations` combines bitmaps from the first
operation's, which by `mem_apply` at each step is the Boolean fold
`foldOperations` on each row (`rowsWhere_filterOperations`); the scan
`evaluate_field_operations` starts from `true` instead and stops early, so
it is that fold only for chains of `And` and `AndNot` that start with `And`
(`evaluateFieldOperations_eq_foldOperations`).
-/

namespace TreeMan

variable {N : Numerics}

namespace FieldOperation

/-- The values an operation compares with. -/
def values : FieldOperation N → List (FieldValue N)
  | .eq v | .notEq v | .gt v | .gte v | .lt v | .lte v => [v]
  | .inValues vs | .notInValues vs => vs
  | .range s e => [s, e]

/-- The operations that only test equality with their values. -/
def IsEquality : FieldOperation N → Prop
  | .eq _ | .notEq _ | .inValues _ | .notInValues _ => True
  | _ => False

/-- The operations the index answers from the first pair of the run of a
threshold (`value_gte`, `value_lt`, `value_range_inclusive`), where the
binary search stops on the last. -/
def StartsAtRun : FieldOperation N → Prop
  | .gte _ | .lt _ | .range _ _ => True
  | _ => False

end FieldOperation

namespace FieldType

/-- The key type compares as `FieldValue` does: a value that converts to `c`
is equal to, below or above the value of a key `k` exactly when `c` is. -/
def Exact (N : Numerics) (t : FieldType) : Prop :=
  ∀ (k c : t.Carrier N) (v : FieldValue N), t.convert v = some c →
    (t.toValue k).eq v = decide (k = c) ∧ (t.toValue k).gt v = decide (c < k) ∧
      (t.toValue k).gte v = decide (c ≤ k)

/-- The key type's equality is `FieldValue`'s. -/
def EqExact (N : Numerics) (t : FieldType) : Prop :=
  ∀ (k c : t.Carrier N) (v : FieldValue N), t.convert v = some c →
    (t.toValue k).eq v = decide (k = c)

theorem Exact.eqExact {t : FieldType} (h : t.Exact N) : t.EqExact N :=
  fun k c v hc => (h k c v hc).1

/-- An integer key compares with a value of its own range as the integers
do, since two values of one integer type lie in a common range. -/
theorem intRange_exact {lo hi : Int} (hr : 0 ≤ lo ∨ hi ≤ 2 ^ 127 - 1)
    (toV : IntRange lo hi → FieldValue N) (htoV : ∀ k, (toV k).intValue? = some k.1)
    {k c : IntRange lo hi} {v : FieldValue N} (hc : v.tryToInt lo hi = some c) :
    (toV k).eq v = decide (k = c) ∧ (toV k).gt v = decide (c < k) ∧
      (toV k).gte v = decide (c ≤ k) := by
  have hv : v.intValue? = some c.1 := FieldValue.tryToInt_eq_some.mp hc
  have hkc : FieldValue.CommonRange k.1 c.1 := by
    rcases hr with h | h
    · exact .inl ⟨le_trans h k.2.1, le_trans h c.2.1⟩
    · exact .inr ⟨le_trans k.2.2 h, le_trans c.2.2 h⟩
  refine ⟨?_, ?_, ?_⟩
  · rw [FieldValue.eq_of_intValue? (htoV k) hv hkc]
    exact decide_eq_decide.mpr Subtype.ext_iff.symm
  · rw [FieldValue.gt_of_intValue? (htoV k) hv hkc]
    rfl
  · rw [FieldValue.gte_of_intValue? (htoV k) hv hkc]
    rfl

theorem exact_of_isInteger {t : FieldType} (ht : t.IsInteger) : t.Exact N := by
  obtain ⟨h1, h2, h3, h4, h5⟩ := ht
  intro k c v hc
  cases t
  all_goals first
    | exact absurd rfl ‹_›
    | exact intRange_exact (by norm_num) _ (fun _ => rfl) hc

theorem exact_string : FieldType.string.Exact N := by
  intro k c v hc
  obtain rfl : v = .string c := by
    cases v <;> simp only [convert, FieldValue.tryToString, reduceCtorEq] at hc
    exact congrArg _ (Option.some.inj hc)
  refine ⟨?_, (FieldValue.gt_string k c).trans (decide_eq_decide.mpr Iff.rfl),
    (FieldValue.gte_string k c).trans (decide_eq_decide.mpr Iff.rfl)⟩
  rw [toValue, FieldValue.eq_of_isStringOrBool (.inl (FieldValue.isStringOrBool_string k))]
  exact decide_eq_decide.mpr ⟨fun h => by cases h; rfl, fun h => h ▸ rfl⟩

theorem exact_decimal : FieldType.decimal.Exact N :=
  fun _ _ _ hc => ⟨FieldValue.eq_decimal hc, FieldValue.gt_decimal hc, FieldValue.gte_decimal hc⟩

theorem eqExact_bool : FieldType.bool.EqExact N := by
  intro k c v hc
  obtain rfl : v = .bool c := by
    cases v <;> simp only [convert, FieldValue.tryToBool, reduceCtorEq] at hc
    exact congrArg _ (Option.some.inj hc)
  rw [toValue, FieldValue.eq_of_isStringOrBool (.inl (FieldValue.isStringOrBool_bool k))]
  exact decide_eq_decide.mpr ⟨fun h => by cases h; rfl, fun h => h ▸ rfl⟩

end FieldType

namespace IndexFieldEnum

theorem okOr_eq_ok {ε β : Type} {o : Option β} {e : ε} {b : β} : okOr o e = .ok b ↔ o = some b := by
  cases o <;> simp [okOr]

theorem singleValue_eq_ok {V : Type} {typeName opName : String} {err : String → IndexFieldError}
    {convert : FieldValue N → Option V} {query : V → Option RoaringBitmap} {value : FieldValue N}
    {bm : RoaringBitmap} (h : singleValue typeName opName err convert query value = .ok bm) :
    ∃ c, convert value = some c ∧ query c = some bm := by
  unfold singleValue at h
  split at h
  · exact ⟨_, ‹_›, okOr_eq_ok.mp h⟩
  · cases h

end IndexFieldEnum

section Agreement

variable {α : Type} {t : FieldType} {items : List α} {extractor : α → t.Carrier N}

open IndexField IndexFieldEnum

/-- With distinct keys no key occurs twice. -/
theorem countP_eq_le_one_of_nodup {V : Type} [DecidableEq V] {l : List V} (h : l.Nodup) (c : V) :
    l.countP (· = c) ≤ 1 := by
  have := List.nodup_iff_count_le_one.mp h c
  rwa [List.count_eq_countP] at this

/-- The rows whose key is among the converted values are those whose value
equals one of the values, when each value converts. -/
theorem any_eq_iff_mem_filterMap (hex : t.EqExact N) {vs : List (FieldValue N)}
    (hconv : ∀ v ∈ vs, (t.convert v).isSome) (k : t.Carrier N) :
    vs.any (fun v => (t.toValue k).eq v) = true ↔ k ∈ vs.filterMap t.convert := by
  simp only [List.any_eq_true, List.mem_filterMap]
  constructor
  · rintro ⟨v, hv, he⟩
    obtain ⟨c, hc⟩ := Option.isSome_iff_exists.mp (hconv v hv)
    rw [hex k c v hc, decide_eq_true_eq] at he
    exact ⟨v, hv, he ▸ hc⟩
  · rintro ⟨v, hv, hc⟩
    exact ⟨v, hv, by rw [hex k k v hc, decide_eq_true_eq]⟩

variable (hn : items.length < 2 ^ 32)
include hn

/-- The queries on one converted value, each against its operation. -/
theorem rowsWhere_singleValue {op : FieldOperation N} {bm : RoaringBitmap}
    (hty : t.Exact N ∨ (t.EqExact N ∧ op.IsEquality))
    (hconv : ∀ v ∈ op.values, (t.convert v).isSome)
    (hd : op.StartsAtRun → (items.map extractor).Nodup)
    (hok : (IndexFieldEnum.mk t (build items extractor)).filterOperation op = .ok bm) :
    RowsWhere items extractor (fun k => op.evaluate (t.toValue k) = true) bm := by
  have hex : t.EqExact N := hty.elim (·.eqExact) (·.1)
  cases op with
  | eq v =>
    obtain ⟨c, hc, hb⟩ := singleValue_eq_ok hok
    exact (rowsWhere_valueEq hb).congr fun k => by
      simp [FieldOperation.evaluate, hex k c v hc]
  | notEq v =>
    obtain ⟨c, hc, hb⟩ := singleValue_eq_ok hok
    exact (rowsWhere_valueNotEq hn c hb).congr fun k => by
      simp [FieldOperation.evaluate, hex k c v hc]
  | gt v =>
    have hord : t.Exact N := hty.resolve_right fun h => h.2
    obtain ⟨c, hc, hb⟩ := singleValue_eq_ok hok
    exact (rowsWhere_valueGt c hb).congr fun k => by
      simp [FieldOperation.evaluate, (hord k c v hc).2.1]
  | gte v =>
    have hord : t.Exact N := hty.resolve_right fun h => h.2
    obtain ⟨c, hc, hb⟩ := singleValue_eq_ok hok
    exact (rowsWhere_valueGte c (countP_eq_le_one_of_nodup (hd trivial) c) hb).congr fun k => by
      simp [FieldOperation.evaluate, (hord k c v hc).2.2]
  | lt v =>
    have hord : t.Exact N := hty.resolve_right fun h => h.2
    obtain ⟨c, hc, hb⟩ := singleValue_eq_ok hok
    exact (rowsWhere_valueLt c (countP_eq_le_one_of_nodup (hd trivial) c) hb).congr fun k => by
      simp [FieldOperation.evaluate, FieldValue.lt, (hord k c v hc).2.2]
  | lte v =>
    have hord : t.Exact N := hty.resolve_right fun h => h.2
    obtain ⟨c, hc, hb⟩ := singleValue_eq_ok hok
    exact (rowsWhere_valueLte c hb).congr fun k => by
      simp [FieldOperation.evaluate, FieldValue.lte, (hord k c v hc).2.1]
  | inValues vs =>
    simp only [FieldOperation.values] at hconv
    simp only [filterOperation] at hok
    split_ifs at hok
    exact (rowsWhere_valueIn _ (okOr_eq_ok.mp hok)).congr fun k => by
      rw [FieldOperation.evaluate, any_eq_iff_mem_filterMap hex hconv]
  | notInValues vs =>
    simp only [FieldOperation.values] at hconv
    simp only [filterOperation] at hok
    split_ifs at hok
    exact (rowsWhere_valueNotIn hn _ (okOr_eq_ok.mp hok)).congr fun k => by
      rw [FieldOperation.evaluate, Bool.not_eq_true', ← Bool.not_eq_true,
        any_eq_iff_mem_filterMap hex hconv]
  | range s e =>
    have hord : t.Exact N := hty.resolve_right fun h => h.2
    simp only [FieldOperation.values, List.mem_cons, List.not_mem_nil, or_false,
      forall_eq_or_imp, forall_eq] at hconv
    obtain ⟨cs, hcs⟩ := Option.isSome_iff_exists.mp hconv.1
    obtain ⟨ce, hce⟩ := Option.isSome_iff_exists.mp hconv.2
    simp only [filterOperation, hcs, hce] at hok
    have hb := okOr_eq_ok.mp hok
    exact (rowsWhere_valueRangeInclusive cs ce (countP_eq_le_one_of_nodup (hd trivial) cs)
      hb).congr fun k => by
        simp [FieldOperation.evaluate, FieldValue.lte, (hord k cs s hcs).2.2, (hord k ce e hce).2.1]

end Agreement

section SingleQuery

variable {α : Type} {t : FieldType} {items : List α} {extractor : α → t.Carrier N}

open IndexField

/-- A query of an integer, `String` or `Decimal` index, or of a `bool` index
by an operation that only tests equality, whose values all convert, answers
over fewer than `2³²` rows (with distinct keys for the queries that start at
the run of a threshold) exactly the rows the operation holds of. -/
theorem filterOperation_agrees_with_evaluate {op : FieldOperation N} {bm : RoaringBitmap}
    (hty : t.IsInteger ∨ t = .string ∨ t = .decimal ∨ (t = .bool ∧ op.IsEquality))
    (hconv : ∀ v ∈ op.values, (t.convert v).isSome)
    (hn : items.length < 2 ^ 32)
    (hd : op.StartsAtRun → (items.map extractor).Nodup)
    (hok : (IndexFieldEnum.mk t (build items extractor)).filterOperation op = .ok bm) :
    RowsWhere items extractor (fun k => op.evaluate (t.toValue k) = true) bm := by
  refine rowsWhere_singleValue hn ?_ hconv hd hok
  rcases hty with hi | rfl | rfl | ⟨rfl, heq⟩
  · exact .inl (FieldType.exact_of_isInteger hi)
  · exact .inl FieldType.exact_string
  · exact .inl FieldType.exact_decimal
  · exact .inr ⟨FieldType.eqExact_bool, heq⟩

theorem filterOperation_agrees_on_two_u64_rows :
    RowsWhere ([⟨5, by decide⟩, ⟨7, by decide⟩] : List (FieldType.u64.Carrier Numerics.exactRat)) id
      (fun k => (FieldOperation.eq (.u64 ⟨7, by decide⟩)).evaluate (FieldType.u64.toValue k) = true)
      (bitmapOfIndices [1]) :=
  filterOperation_agrees_with_evaluate (.inl (by simp [FieldType.IsInteger])) (by decide)
    (by decide) (fun h => False.elim h) (by decide)

/-- A `bool` index answers `Gt(false)` with the rows of `true`, which
`evaluate` does not hold of: `FieldValue::gt` is never true of two bools. -/
theorem bool_index_gt_false :
    (IndexFieldEnum.mk .bool (build [true] id) : IndexFieldEnum Numerics.exactRat).filterOperation
        (.gt (.bool false)) = .ok (bitmapOfIndices [0]) ∧
      (FieldOperation.gt (.bool false)).evaluate
        (FieldType.bool.toValue true : FieldValue Numerics.exactRat) = false :=
  ⟨rfl, FieldValue.gt_bool true false⟩

end SingleQuery

section Combining

/-- What `filter_operations` computes of one row: the first operation's
answer, then each later one combined into it by its `Op`; the first `Op` is
not read. -/
def foldOperations (value : FieldValue N) : List (FieldOperation N × Op) → Bool
  | [] => false
  | (first, _) :: rest => rest.foldl (fun r p => p.2.eval r (p.1.evaluate value)) (first.evaluate value)

variable {α : Type} {t : FieldType} {items : List α} {extractor : α → t.Carrier N}

open IndexField IndexFieldEnum

variable (hn : items.length < 2 ^ 32)
include hn

/-- The loop of `filter_operations` after the first operation: each later
bitmap, combined in by its `Op`, is on each row the Boolean step of the fold
when each operation alone is answered exactly. Each step keeps the bitmap
among the rows, which `mem_apply` needs. -/
theorem rows_foldlM_filterOperation {rest : List (FieldOperation N × Op)} {r bm : RoaringBitmap}
    (hexact : ∀ p ∈ rest, ∀ b,
      (IndexFieldEnum.mk t (build items extractor)).filterOperation p.1 = .ok b →
        RowsWhere items extractor (fun k => p.1.evaluate (t.toValue k) = true) b)
    (hr : ∀ x ∈ r, x < items.length)
    (hok : rest.foldlM (fun result p => do
        let bitmap ← (IndexFieldEnum.mk t (build items extractor)).filterOperation p.1
        pure (p.2.apply (IndexFieldEnum.mk t (build items extractor)).len result bitmap)) r =
      .ok bm) :
    (∀ x ∈ bm, x < items.length) ∧ ∀ i (hi : i < items.length), i ∈ bm ↔
      rest.foldl (fun b p => p.2.eval b (p.1.evaluate (t.toValue (extractor items[i]))))
        (decide (i ∈ r)) = true := by
  induction rest generalizing r with
  | nil =>
    cases hok
    exact ⟨hr, fun i _ => by simp⟩
  | cons p rest ih =>
    rw [List.foldlM_cons] at hok
    cases hb : (IndexFieldEnum.mk t (build items extractor)).filterOperation p.1 with
    | error err => simp [hb] at hok; cases hok
    | ok b =>
      simp only [hb] at hok
      have hexb := hexact p List.mem_cons_self b hb
      have hlen : asU32 (IndexFieldEnum.mk t (build items extractor)).len = items.length := by
        rw [IndexFieldEnum.len, build_size, asU32_of_lt hn]
      have hr' : ∀ x ∈ p.2.apply (IndexFieldEnum.mk t (build items extractor)).len r b,
          x < items.length := fun x hx =>
        lt_of_mem_apply hlen.le hr (fun y hy => hexb.lt_length hn hy) hx
      obtain ⟨hbm, hrows⟩ := ih (fun q hq => hexact q (List.mem_cons_of_mem p hq)) hr' hok
      refine ⟨hbm, fun i hi => ?_⟩
      rw [hrows i hi, List.foldl_cons, Bool.decide_congr (mem_apply (by rw [hlen]; exact hi)), Bool.decide_eq_true,
        Bool.decide_congr (hexb.mem_row hn hi), Bool.decide_eq_true]

/-- `filter_operations` answers the rows of which `foldOperations` holds,
when each operation alone is answered exactly. -/
theorem rowsWhere_filterOperations {ops : List (FieldOperation N × Op)} {bm : RoaringBitmap}
    (hexact : ∀ p ∈ ops, ∀ b,
      (IndexFieldEnum.mk t (build items extractor)).filterOperation p.1 = .ok b →
        RowsWhere items extractor (fun k => p.1.evaluate (t.toValue k) = true) b)
    (hok : (IndexFieldEnum.mk t (build items extractor)).filterOperations ops = .ok bm) :
    RowsWhere items extractor (fun k => foldOperations (t.toValue k) ops = true) bm := by
  cases ops with
  | nil => cases hok
  | cons first rest =>
    obtain ⟨first, op⟩ := first
    simp only [filterOperations] at hok
    cases h0 : (IndexFieldEnum.mk t (build items extractor)).filterOperation first with
    | error err => simp [h0] at hok; cases hok
    | ok r =>
      rw [h0] at hok
      have hexr := hexact (first, op) List.mem_cons_self r h0
      obtain ⟨hbm, hrows⟩ := rows_foldlM_filterOperation hn
        (fun q hq => hexact q (List.mem_cons_of_mem _ hq)) (fun x hx => hexr.lt_length hn hx) hok
      refine rowsWhere_of_rows hn hbm fun i hi => ?_
      rw [hrows i hi, foldOperations, Bool.decide_congr (hexr.mem_row hn hi), Bool.decide_eq_true]

omit hn

/-- Operations that combine by `And` or `AndNot`. -/
def Conjunctive (ops : List (FieldOperation N × Op)) : Prop :=
  ∀ p ∈ ops, p.2 = .and ∨ p.2 = .andNot

/-- From `false`, `And` and `AndNot` steps stay `false`. -/
theorem foldl_conjunctive_false (value : FieldValue N) {ops : List (FieldOperation N × Op)}
    (hc : Conjunctive ops) :
    ops.foldl (fun b p => p.2.eval b (p.1.evaluate value)) false = false := by
  induction ops with
  | nil => rfl
  | cons p rest ih =>
    rw [List.foldl_cons]
    rcases hc p List.mem_cons_self with h | h <;>
      simpa [h] using ih fun q hq => hc q (List.mem_cons_of_mem p hq)

/-- One `And` or `AndNot` step of the scan: the combined result, or `false`
at once. -/
theorem evaluateFieldOperationsFrom_conj_step (value : FieldValue N) (r : Bool)
    (o : FieldOperation N) {op : Op} (hop : op = .and ∨ op = .andNot)
    (rest : List (FieldOperation N × Op)) :
    evaluateFieldOperationsFrom value r ((o, op) :: rest) =
      if op.eval r (o.evaluate value) then
        evaluateFieldOperationsFrom value (op.eval r (o.evaluate value)) rest
      else false := by
  rcases hop with rfl | rfl <;> simp only [evaluateFieldOperationsFrom] <;> split_ifs <;> simp_all

/-- On `And` and `AndNot` steps the scan's early exits answer what the fold
does, since the fold cannot leave `false` either. -/
theorem evaluateFieldOperationsFrom_conjunctive (value : FieldValue N) (r : Bool)
    {ops : List (FieldOperation N × Op)} (hc : Conjunctive ops) :
    evaluateFieldOperationsFrom value r ops =
      ops.foldl (fun b p => p.2.eval b (p.1.evaluate value)) r := by
  induction ops generalizing r with
  | nil => rfl
  | cons p rest ih =>
    obtain ⟨o, op⟩ := p
    have hrest : Conjunctive rest := fun q hq => hc q (List.mem_cons_of_mem _ hq)
    rw [evaluateFieldOperationsFrom_conj_step value r o (hc _ List.mem_cons_self) rest,
      List.foldl_cons]
    split_ifs with hm
    · exact ih _ hrest
    · rw [Bool.not_eq_true] at hm
      rw [hm, foldl_conjunctive_false value hrest]

/-- A chain that starts with `And` and goes on with `And` and `AndNot`
gets the same answer from the scan and from `filter_operations`. -/
theorem evaluateFieldOperations_eq_foldOperations (value : FieldValue N)
    (first : FieldOperation N) {rest : List (FieldOperation N × Op)} (hc : Conjunctive rest) :
    evaluateFieldOperations value ((first, .and) :: rest) =
      foldOperations value ((first, .and) :: rest) := by
  rw [evaluateFieldOperations, evaluateFieldOperationsFrom_conjunctive value true
    (fun p hp => (List.mem_cons.mp hp).elim (fun h => .inl (h ▸ rfl)) (hc p)),
    List.foldl_cons, foldOperations]
  rfl

/-- One `Or` operation that does not hold: the scan, from `true`, answers
`true`; `filter_operations` answers with the operation alone, `false`. -/
theorem evaluateFieldOperations_single_or :
    evaluateFieldOperations (.u64 ⟨5, by decide⟩ : FieldValue N)
        [(.eq (.u64 ⟨6, by decide⟩), .or)] = true ∧
      foldOperations (.u64 ⟨5, by decide⟩ : FieldValue N) [(.eq (.u64 ⟨6, by decide⟩), .or)] =
        false :=
  ⟨rfl, rfl⟩

end Combining

end TreeMan
