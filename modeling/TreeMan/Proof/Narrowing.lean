import Mathlib
import TreeMan.Framework.Except
import TreeMan.Proof.Bounds
import TreeMan.Proof.NgramSearch
import TreeMan.Proof.Levels

/-!
# Filtering only narrows an `Owned` view

An `Owned` view keeps positions of rows of its source. Over a source of
fewer than `2^32` rows (the range of the `u32` casts), every state a run of
calls reaches is well formed (`ownedViewWf_of_reachable`): its current
positions and those of every stored level increase and lie below the row
count (`Positions`), the mask, when set, holds exactly the current positions,
and every index answers rows of the source (`IndexType.Fits`).

On such a state a successful filtering call pushes a level whose positions
are among the current ones, whichever path it takes: the predicate scan,
the field-index path through the mask, or a text search
(`FilteringCall.run_narrower`). So the new current positions are a sublist
of the old ones.
-/

namespace TreeMan

/-! ### Positions of source rows -/

/-- Positions of rows of a source of `n` rows, as a view keeps them:
increasing, each below `n`. -/
structure Positions (n : Nat) (l : List Nat) : Prop where
  sorted : l.Pairwise (· < ·)
  lt : ∀ i ∈ l, i < n

namespace Positions

variable {n : Nat} {l l' : List Nat}

theorem range (n : Nat) : Positions n (List.range n) :=
  ⟨List.pairwise_lt_range, fun _ hi => List.mem_range.mp hi⟩

theorem filter (h : Positions n l) (p : Nat → Bool) : Positions n (l.filter p) :=
  ⟨h.sorted.filter p, fun i hi => h.lt i (List.mem_of_mem_filter hi)⟩

theorem mono (h : Positions n l) {n' : Nat} (hn : n ≤ n') : Positions n' l :=
  ⟨h.sorted, fun i hi => lt_of_lt_of_le (h.lt i hi) hn⟩

/-- Increasing positions, each among those of `l`, form a sublist of `l`. -/
theorem sublist_of_subset (h : Positions n l) (hs : l'.Pairwise (· < ·)) (hsub : l' ⊆ l) :
    l'.Sublist l :=
  List.sublist_of_subperm_of_pairwise (List.subperm_of_subset hs.nodup hsub) hs h.sorted

theorem sublist_range (h : Positions n l) : l.Sublist (List.range n) :=
  (range n).sublist_of_subset h.sorted fun i hi => List.mem_range.mpr (h.lt i hi)

theorem length_le (h : Positions n l) : l.length ≤ n := by
  simpa using h.sublist_range.length_le

theorem eq_nil (h : Positions n l) (hn : n = 0) : l = [] :=
  List.eq_nil_of_length_eq_zero (Nat.le_zero.mp (hn ▸ h.length_le))

/-- As many positions as rows are all of them. -/
theorem eq_range (h : Positions n l) (hl : n ≤ l.length) : l = List.range n :=
  h.sublist_range.eq_of_length_le (by simpa using hl)

theorem mem_bitmapOfIndices_iff (h : Positions n l) (hn : n ≤ 2 ^ 32) {x : Nat} :
    x ∈ bitmapOfIndices l ↔ x ∈ l := by
  rw [mem_bitmapOfIndices]
  constructor
  · rintro ⟨i, hi, rfl⟩
    rwa [asU32_of_lt (lt_of_lt_of_le (h.lt i hi) hn)]
  · intro hx
    exact ⟨x, hx, asU32_of_lt (lt_of_lt_of_le (h.lt x hx) hn)⟩

/-- Below `2^32`, the bitmap of the positions gives them back. -/
theorem toIndices_bitmapOfIndices (h : Positions n l) (hn : n ≤ 2 ^ 32) :
    toIndices (bitmapOfIndices l) = l :=
  List.Pairwise.eq_of_mem_iff (bitmapOfIndices l).sorted h.sorted
    fun _ => h.mem_bitmapOfIndices_iff hn

end Positions

namespace TextIndex

variable (lower : List Char → List Char) {idx : TextIndex} {rows : List Nat}

theorem Consistent.positions_search (hc : idx.Consistent) (hn : idx.totalItems < 2 ^ 32)
    {query : List Char} (h : idx.search lower query = some rows) : Positions idx.totalItems rows := by
  rw [search_eq_matchingRows lower hc hn] at h
  split_ifs at h
  · cases h
    exact ⟨.nil, fun _ hi => absurd hi List.not_mem_nil⟩
  · obtain ⟨_, -, rfl⟩ := Option.map_eq_some_iff.mp h
    rw [← hc.length_itemTexts]
    exact (Positions.range _).filter _

theorem Consistent.positions_searchComplexWords (hc : idx.Consistent)
    (hn : idx.totalItems < 2 ^ 32) {orWords andWords notWords : List (List Char)}
    (h : idx.searchComplexWords lower orWords andWords notWords = some rows) :
    Positions idx.totalItems rows := by
  rw [searchComplexWords_eq lower hc hn] at h
  split_ifs at h
  cases h
  rw [← hc.length_itemTexts]
  exact (Positions.range _).filter _

end TextIndex

/-! ### The storage of an `Owned` view -/

namespace OwnedStorage

variable {T : Type} {o : OwnedStorage T}

@[simp] theorem pushLevel_source (indices : List Nat) : (o.pushLevel indices).source = o.source := by
  unfold OwnedStorage.pushLevel
  split_ifs <;> rfl

theorem length_rowsAt_le (source : List T) (indices : List Nat) :
    (rowsAt source indices).length ≤ indices.length :=
  List.length_filterMap_le _ _

/-- The storage of an `Owned` view: every list of positions, current or
stored, holds positions of the source, and every list of rows, cached or
stored, at most as many rows as the source. -/
structure Wf (o : OwnedStorage T) : Prop where
  fullIndices : o.fullIndices = List.range o.source.length
  current : Positions o.source.length o.currentIndices
  levelIndices : ∀ l ∈ o.levelIndices, Positions o.source.length l
  cache : ∀ c, o.currentCache = some c → c.length ≤ o.source.length
  levels : ∀ l ∈ o.levels, l.length ≤ o.source.length

theorem Wf.length_rowsAt_current (hw : o.Wf) :
    (rowsAt o.source o.currentIndices).length ≤ o.source.length :=
  (length_rowsAt_le _ _).trans hw.current.length_le

theorem Wf.pushLevel (hw : o.Wf) {indices : List Nat} (hp : Positions o.source.length indices) :
    (o.pushLevel indices).Wf := by
  have hrows := (length_rowsAt_le o.source indices).trans hp.length_le
  unfold OwnedStorage.pushLevel
  split_ifs
  · refine ⟨hw.fullIndices, hp, ?_, ?_, ?_⟩
    · simpa [or_imp, forall_and] using ⟨hw.levelIndices, hp⟩
    · rintro c ⟨⟩
      exact hrows
    · simpa [or_imp, forall_and] using ⟨hw.levels, hrows⟩
  · refine ⟨hw.fullIndices, hp, ?_, (fun c hc => by cases hc), ?_⟩
    · simpa [or_imp, forall_and] using ⟨hw.levelIndices, hp⟩
    · simpa [or_imp, forall_and] using hw.levels

theorem source_of_goToLevel {t : Nat} {trim : Bool} {o' : OwnedStorage T}
    (h : DataStorage.goToLevel t trim (.owned o) = .owned o') : o'.source = o.source := by
  simp only [DataStorage.goToLevel, DataStorage.owned.injEq] at h
  subst h
  rfl

/-- Moving to a level makes its positions and rows current and at most
drops later levels. -/
theorem Wf.goToLevel (hw : o.Wf) {t : Nat} {trim : Bool} {o' : OwnedStorage T}
    (h : DataStorage.goToLevel t trim (.owned o) = .owned o') : o'.Wf := by
  simp only [DataStorage.goToLevel, DataStorage.owned.injEq] at h
  subst h
  refine ⟨hw.fullIndices, ?_, ?_, ?_, ?_⟩
  · cases hl : o.levelIndices[t]? with
    | none => exact hw.current
    | some l => exact hw.levelIndices l (List.mem_of_getElem? hl)
  · cases trim
    · exact hw.levelIndices
    · exact fun l hl => hw.levelIndices l (List.mem_of_mem_take hl)
  · exact fun c hc => hw.levels c (List.mem_of_getElem? hc)
  · cases trim
    · exact hw.levels
    · exact fun l hl => hw.levels l (List.mem_of_mem_take hl)

theorem Wf.resetToSource (hw : o.Wf) :
    ({ o with currentIndices := o.fullIndices, currentCache := some o.source,
               levels := [o.source], levelIndices := [o.fullIndices] } : OwnedStorage T).Wf := by
  have hfull : Positions o.source.length o.fullIndices := hw.fullIndices ▸ Positions.range _
  refine ⟨hw.fullIndices, hfull, ?_, ?_, ?_⟩
  · simpa using hfull
  · rintro c ⟨⟩
    exact le_rfl
  · simp

theorem Wf.cacheRows (hw : o.Wf) :
    ({ o with currentCache := some (rowsAt o.source o.currentIndices) } : OwnedStorage T).Wf := by
  refine ⟨hw.fullIndices, hw.current, hw.levelIndices, ?_, hw.levels⟩
  rintro c ⟨⟩
  exact hw.length_rowsAt_current

end OwnedStorage

/-! ### Well-formed `Owned` views -/

namespace IndexType

variable {N : Numerics} {T : Type}

/-- An index that answers rows of a source of `n` rows: a field index keeps
its rows below its size, at most `n`; a text index is as `build` leaves it,
over at most `n` rows. -/
def Fits (n : Nat) : IndexType N T → Prop
  | .field index _ => index.idx.Bounded ∧ index.len ≤ n
  | .text index => index.Consistent ∧ index.totalItems ≤ n

end IndexType

namespace FilterData

variable {N : Numerics} {T : Type} {s s₁ s' : FilterData N T} {o : OwnedStorage T}

/-- An `Owned` view with storage `o`: the storage well formed, the mask, when
set, the bitmap of exactly the current positions, and every index answering
rows of the source. -/
structure OwnedWf (s : FilterData N T) (o : OwnedStorage T) : Prop where
  storage : o.Wf
  mask : ∀ m, s.sourceIndicesMask = some m → toIndices m = o.currentIndices
  indexes : ∀ name index, s.indexes name = some index → index.Fits o.source.length

/-- Every `Owned` view over fewer than `2^32` rows is well formed. -/
def OwnedViewWf (s : FilterData N T) : Prop :=
  ∀ o, s.storage = .owned o → o.source.length < 2 ^ 32 → s.OwnedWf o

theorem currentIndices_of_owned (ho : s.storage = .owned o) : s.currentIndices = o.currentIndices := by
  simp [currentIndices, ho]

theorem MaskedOrSame.indexes (h : MaskedOrSame s s') : s'.indexes = s.indexes := by
  rcases h with rfl | rfl <;> rfl

/-- Setting the mask to the bitmap of the current positions keeps a view
well formed. -/
theorem OwnedWf.masked (hw : s.OwnedWf o) (ho : s.storage = .owned o) (hn : o.source.length ≤ 2 ^ 32)
    (h : MaskedOrSame s s') : s'.OwnedWf o := by
  rcases h with rfl | rfl
  · exact hw
  · refine ⟨hw.storage, fun m hm => ?_, hw.indexes⟩
    cases hm
    rw [currentIndices_of_owned ho]
    exact hw.storage.current.toIndices_bitmapOfIndices hn

theorem OwnedWf.fits_of_getIndex (hw : s.OwnedWf o) {name : String} {index : IndexType N T}
    (h : s.getIndex name = .ok index) : index.Fits o.source.length := by
  unfold getIndex at h
  split at h
  · cases h
    exact hw.indexes name index ‹_›
  · cases h

/-- A field index of the view answers rows of the source. -/
theorem OwnedWf.bounded_of_fieldIndexOf (hw : s.OwnedWf o) {name name' : String}
    {index : IndexType N T} {r : IndexFieldEnum N × (T → FieldValue N)}
    (hget : s.getIndex name = .ok index) (h : fieldIndexOf name' index = .ok r) :
    r.1.idx.Bounded ∧ r.1.len ≤ o.source.length := by
  have hfit := hw.fits_of_getIndex hget
  cases index with
  | field fi ex =>
    simp only [fieldIndexOf, IndexType.asField, Except.ok.injEq] at h
    subst h
    exact hfit
  | text t => simp [fieldIndexOf, IndexType.asField] at h

/-! ### A successful filtering call narrows the view -/

/-- What a successful filtering call does to an `Owned` view with storage
`o`: it pushes a level of increasing positions, each current in `o`, makes
them current, keeps the indexes, and leaves no mask or the bitmap of the
new positions. -/
def PushesNarrower (o : OwnedStorage T) (s s' : FilterData N T) : Prop :=
  ∃ indices : List Nat, indices.Pairwise (· < ·) ∧ indices ⊆ o.currentIndices ∧
    s'.storage = .owned (o.pushLevel indices) ∧ s'.indexes = s.indexes ∧
    ∀ m, s'.sourceIndicesMask = some m → toIndices m = indices

theorem PushesNarrower.of_indexes (h : PushesNarrower o s₁ s') (hi : s₁.indexes = s.indexes) :
    PushesNarrower o s s' := by
  obtain ⟨indices, hs, hsub, hst, hidx, hm⟩ := h
  exact ⟨indices, hs, hsub, hst, hidx.trans hi, hm⟩

theorem applyFilteredIndices_narrower {indices : List Nat} {info : String}
    (ho : s.storage = .owned o) (hs : indices.Pairwise (· < ·)) (hsub : indices ⊆ o.currentIndices)
    (h : s.applyFilteredIndices indices info = .ok s') : PushesNarrower o s s' := by
  unfold applyFilteredIndices at h
  simp only [ho] at h
  split_ifs at h
  cases h
  exact ⟨indices, hs, hsub, rfl, rfl, fun m hm => by cases hm⟩

theorem applyOwnedData_narrower {b : RoaringBitmap} {info : String} (ho : s.storage = .owned o)
    (hsub : ∀ x ∈ b, x ∈ o.currentIndices) (h : s.applyOwnedData b info = .ok s') :
    PushesNarrower o s s' := by
  unfold applyOwnedData at h
  simp only [ho] at h
  cases h
  exact ⟨toIndices b, b.sorted, hsub, rfl, rfl, fun m hm => by cases hm; rfl⟩

theorem applyFilteredItemsWithBitmap_narrower {b : RoaringBitmap} {info : String}
    (ho : s.storage = .owned o) (hsub : ∀ x ∈ b, x ∈ o.currentIndices)
    (h : s.applyFilteredItemsWithBitmap b info = .ok s') : PushesNarrower o s s' := by
  unfold applyFilteredItemsWithBitmap at h
  simp only [ho] at h
  split_ifs at h
  exact applyOwnedData_narrower ho hsub h

theorem applyFilteredItems_narrower {predicate : T → Bool} {info : String}
    (ho : s.storage = .owned o) (hs : o.currentIndices.Pairwise (· < ·))
    (h : s.applyFilteredItems predicate info = .ok s') : PushesNarrower o s s' := by
  unfold applyFilteredItems at h
  simp only [ho] at h
  split_ifs at h
  exact applyFilteredIndices_narrower ho (hs.filter _) (fun _ hi => List.mem_of_mem_filter hi) h

/-- The bitmap `apply_field_bitmap` filters with holds the current positions
in the field's bitmap, when that holds rows of the source: through the mask,
or through the bitmap of the current positions, or, when every row is
current, as it is. -/
theorem OwnedWf.mem_maskedBitmap (hw : s.OwnedWf o) (ho : s.storage = .owned o)
    (hn : o.source.length ≤ 2 ^ 32) {b : RoaringBitmap} (hb : ∀ x ∈ b, x < o.source.length)
    (x : Nat) : x ∈ (s.maskedBitmap b).1 ↔ x ∈ o.currentIndices ∧ x ∈ b := by
  unfold maskedBitmap
  split
  · rename_i m hm
    rw [SortedSet.mem_inter, ← hw.mask m hm]
    rfl
  · simp only [ho]
    split_ifs with hlt
    · rw [SortedSet.mem_inter, hw.storage.current.mem_bitmapOfIndices_iff hn]
    · rw [hw.storage.fullIndices, List.length_range] at hlt
      rw [hw.storage.current.eq_range (Nat.le_of_not_lt hlt), List.mem_range]
      exact ⟨fun hx => ⟨hb x hx, hx⟩, fun hx => hx.2⟩

theorem OwnedWf.maskedBitmap_subset (hw : s.OwnedWf o) (ho : s.storage = .owned o)
    (hn : o.source.length ≤ 2 ^ 32) {b : RoaringBitmap} (hb : ∀ x ∈ b, x < o.source.length) :
    ∀ x ∈ (s.maskedBitmap b).1, x ∈ o.currentIndices :=
  fun x hx => ((hw.mem_maskedBitmap ho hn hb x).mp hx).1

theorem OwnedWf.applyFieldBitmap_narrower (hw : s.OwnedWf o) (ho : s.storage = .owned o)
    (hn : o.source.length ≤ 2 ^ 32) {b : RoaringBitmap} (hb : ∀ x ∈ b, x < o.source.length)
    {description : String} (h : s.applyFieldBitmap b description = .ok s') :
    PushesNarrower o s s' := by
  unfold applyFieldBitmap at h
  split_ifs at h
  have hm := maskedBitmap_snd (s := s) b
  have hsub := hw.maskedBitmap_subset ho hn hb
  rcases hsplit : s.maskedBitmap b with ⟨finalBitmap, s₁⟩
  rw [hsplit] at hm h hsub
  dsimp only at h hsub
  split_ifs at h
  exact (applyFilteredItemsWithBitmap_narrower (hm.storage.trans ho) hsub h).of_indexes hm.indexes

theorem lt_of_applyFieldOperations {fieldIndex : IndexFieldEnum N} (hb : fieldIndex.idx.Bounded)
    {operations : List (FieldOperation N × Op)} {b : RoaringBitmap}
    (h : applyFieldOperations fieldIndex operations = .ok b) : ∀ x ∈ b, x < fieldIndex.len := by
  unfold applyFieldOperations at h
  rw [Except.mapError_eq_ok] at h
  split at h
  · exact IndexFieldEnum.lt_of_filterOperation hb h
  · exact IndexFieldEnum.lt_of_filterOperations hb h

/-- The intersection `do_filter_by_fields_ops` builds holds rows of the
source when every field's index does: it carries on the field's bitmap, or
its intersection with the one so far. -/
theorem lt_of_combineFieldBitmaps (opText : FieldOperation N → String) {n : Nat} :
    ∀ {fields : List (String × IndexFieldEnum N × List (FieldOperation N × Op))}
      {combined : Option RoaringBitmap} {descriptions : List String} {b : RoaringBitmap}
      {ds : List String},
      (∀ f ∈ fields, f.2.1.idx.Bounded ∧ f.2.1.len ≤ n) → (∀ c, combined = some c → ∀ x ∈ c, x < n) →
      combineFieldBitmaps opText fields combined descriptions = .ok (some b, ds) → ∀ x ∈ b, x < n
  | [], combined, descriptions, b, ds, _, hc, h => by
    cases h
    exact hc b rfl
  | (fieldName, fieldIndex, operations) :: rest, combined, descriptions, b, ds, hf, hc, h => by
    have hrest : ∀ f ∈ rest, f.2.1.idx.Bounded ∧ f.2.1.len ≤ n :=
      fun f hf' => hf f (List.mem_cons_of_mem _ hf')
    unfold combineFieldBitmaps at h
    split_ifs at h
    · exact lt_of_combineFieldBitmaps opText hrest hc h
    · split at h
      · cases h
      · rename_i fieldBitmap hfb
        obtain ⟨hbd, hle⟩ := hf _ List.mem_cons_self
        refine lt_of_combineFieldBitmaps opText hrest ?_ h
        intro c hc' x hx
        cases combined with
        | none =>
          cases hc'
          exact lt_of_lt_of_le (lt_of_applyFieldOperations hbd hfb x hx) hle
        | some existing =>
          cases hc'
          exact hc existing rfl x (SortedSet.mem_inter.mp hx).1

theorem OwnedWf.doFilterByFieldsOps_narrower (opText : FieldOperation N → String)
    (hw : s.OwnedWf o) (ho : s.storage = .owned o) (hn : o.source.length ≤ 2 ^ 32)
    {fields : List (String × IndexFieldEnum N × List (FieldOperation N × Op))}
    (hf : ∀ f ∈ fields, f.2.1.idx.Bounded ∧ f.2.1.len ≤ o.source.length)
    (h : s.doFilterByFieldsOps opText fields = .ok s') : PushesNarrower o s s' := by
  unfold doFilterByFieldsOps at h
  split_ifs at h
  split at h
  · cases h
  · cases h
  · rename_i finalBitmap descriptions hcomb
    exact hw.applyFieldBitmap_narrower ho hn
      (lt_of_combineFieldBitmaps opText hf (fun c hc => by cases hc) hcomb) h

theorem OwnedWf.filterByFieldOps_narrower (opText : FieldOperation N → String)
    (hw : s.OwnedWf o) (ho : s.storage = .owned o) (hn : o.source.length ≤ 2 ^ 32)
    {name : String} {operations : List (FieldOperation N × Op)} {efficient : Bool}
    (h : s.filterByFieldOps opText name operations efficient = .ok s') : PushesNarrower o s s' := by
  unfold filterByFieldOps at h
  split_ifs at h
  · split at h
    · cases h
    · rename_i fieldIndex extractor hidx
      obtain ⟨index, hget, hof⟩ := Except.bind_eq_ok.mp hidx
      refine hw.doFilterByFieldsOps_narrower opText ho hn ?_ h
      intro f hf
      rw [List.mem_singleton] at hf
      subst hf
      exact hw.bounded_of_fieldIndexOf hget hof
  · split at h
    · cases h
    · exact applyFilteredItems_narrower ho hw.storage.current.sorted h

/-- `filter_by_fields_ops` pushes a narrower level: every resolved index is a
field index of the view. -/
theorem OwnedWf.filterByFieldsOps_narrower (opText : FieldOperation N → String)
    (hw : s.OwnedWf o) (ho : s.storage = .owned o) (hn : o.source.length ≤ 2 ^ 32)
    {fields : List (String × List (FieldOperation N × Op))} {efficient : Bool}
    (h : s.filterByFieldsOps opText fields efficient = .ok s') : PushesNarrower o s s' := by
  unfold filterByFieldsOps at h
  split_ifs at h
  · split at h
    · cases h
    · rename_i indexes hindexes
      split at h
      · cases h
      · rename_i resolved hresolved
        refine hw.doFilterByFieldsOps_narrower opText ho hn ?_ h
        intro f hf
        obtain ⟨p, hp, rfl⟩ := List.mem_map.mp hf
        obtain ⟨⟨f', index⟩, hp', hof⟩ :=
          Except.mem_of_mapM_eq_ok hresolved p.2 (List.of_mem_zip hp).2
        obtain ⟨f'', -, hget⟩ := Except.mem_of_mapM_eq_ok hindexes index (List.of_mem_zip hp').2
        exact hw.bounded_of_fieldIndexOf hget hof
  · split at h
    · cases h
    · split at h
      · cases h
      · exact applyFilteredItems_narrower ho hw.storage.current.sorted h

/-- The positions a text search keeps are current ones: all of the
answered rows when every row is current, else their intersection with the
current positions. -/
theorem OwnedWf.narrowToCurrent_subset (hw : s.OwnedWf o) (ho : s.storage = .owned o)
    (hn : o.source.length ≤ 2 ^ 32) {textIndices : List Nat}
    (ht : Positions o.source.length textIndices) :
    (s.narrowToCurrent textIndices).Pairwise (· < ·) ∧
      s.narrowToCurrent textIndices ⊆ o.currentIndices := by
  have hcur := hw.storage.current
  unfold narrowToCurrent
  simp only [currentIndices_of_owned ho, parentData, ho, Option.map_some, Option.getD_some]
  split_ifs with hlen
  · rw [hcur.eq_range hlen.ge]
    exact ⟨ht.sorted, fun i hi => List.mem_range.mpr (ht.lt i hi)⟩
  · unfold intersectIndices
    split_ifs
    · exact ⟨.nil, List.nil_subset _⟩
    · refine ⟨SortedSet.sorted _, fun x hx => ?_⟩
      exact (hcur.mem_bitmapOfIndices_iff hn).mp (SortedSet.mem_inter.mp hx).1

theorem OwnedWf.applyTextIndices_narrower (hw : s.OwnedWf o) (ho : s.storage = .owned o)
    (hn : o.source.length ≤ 2 ^ 32) {name desc : String} {textIndices : List Nat}
    (ht : Positions o.source.length textIndices)
    (h : s.applyTextIndices name textIndices desc = .ok s') : PushesNarrower o s s' := by
  unfold applyTextIndices at h
  dsimp only at h
  split_ifs at h
  obtain ⟨hs, hsub⟩ := hw.narrowToCurrent_subset ho hn ht
  exact applyFilteredIndices_narrower ho hs hsub h

/-- A text index of the view answers rows of the source, in increasing
order. -/
theorem OwnedWf.positions_of_text (hw : s.OwnedWf o) (hn : o.source.length < 2 ^ 32)
    {name : String} {index : IndexType N T} {t : TextIndex} {rows : List Nat}
    (hidx : s.indexes name = some index) (ht : index.asText = some t)
    (hrows : t.Consistent → t.totalItems < 2 ^ 32 → Positions t.totalItems rows) :
    Positions o.source.length rows := by
  have hfit := hw.indexes name index hidx
  cases index with
  | text t' =>
    simp only [IndexType.asText, Option.some.injEq] at ht
    subst ht
    exact (hrows hfit.1 (lt_of_le_of_lt hfit.2 hn)).mono hfit.2
  | field fi ex => simp [IndexType.asText] at ht

theorem OwnedWf.positions_getIndicesWithText (lower : List Char → List Char) (hw : s.OwnedWf o)
    (hn : o.source.length < 2 ^ 32) {name : String} {query : List Char} {rows : List Nat}
    (h : s.getIndicesWithText lower name query = some (.ok rows)) :
    Positions o.source.length rows := by
  unfold getIndicesWithText at h
  split at h
  · cases h
  · rename_i index hidx
    split at h
    · cases h
    · rename_i t ht
      obtain ⟨_, hs, hok⟩ := Option.map_eq_some_iff.mp h
      cases hok
      exact hw.positions_of_text hn hidx ht fun hc htot => hc.positions_search lower htot hs

theorem OwnedWf.positions_getIndicesComplexWords (lower : List Char → List Char)
    (hw : s.OwnedWf o) (hn : o.source.length < 2 ^ 32) {name : String}
    {orWords andWords notWords : List (List Char)} {rows : List Nat}
    (h : s.getIndicesComplexWords lower name orWords andWords notWords = some (.ok rows)) :
    Positions o.source.length rows := by
  unfold getIndicesComplexWords at h
  split at h
  · cases h
  · rename_i index hidx
    split at h
    · cases h
    · rename_i t ht
      obtain ⟨_, hs, hok⟩ := Option.map_eq_some_iff.mp h
      cases hok
      exact hw.positions_of_text hn hidx ht fun hc htot =>
        hc.positions_searchComplexWords lower htot hs

theorem OwnedWf.searchWithText_narrower (lower : List Char → List Char) (hw : s.OwnedWf o)
    (ho : s.storage = .owned o) (hn : o.source.length < 2 ^ 32) {name : String}
    {query : List Char} (h : s.searchWithText lower name query = .ok s') :
    PushesNarrower o s s' := by
  unfold searchWithText at h
  split at h
  · cases h
  · cases h
  · rename_i rows hrows
    exact hw.applyTextIndices_narrower ho hn.le (hw.positions_getIndicesWithText lower hn hrows) h

theorem OwnedWf.searchComplexWordsText_narrower (lower : List Char → List Char)
    (hw : s.OwnedWf o) (ho : s.storage = .owned o) (hn : o.source.length < 2 ^ 32)
    {name : String} {orWords andWords notWords : List (List Char)}
    (h : s.searchComplexWordsText lower name orWords andWords notWords = .ok s') :
    PushesNarrower o s s' := by
  unfold searchComplexWordsText at h
  split at h
  · cases h
  · cases h
  · rename_i rows hrows
    exact hw.applyTextIndices_narrower ho hn.le
      (hw.positions_getIndicesComplexWords lower hn hrows) h

/-- Every successful filtering call on a well-formed `Owned` view pushes a
level of current positions. -/
theorem OwnedWf.run_narrower (lower : List Char → List Char) (opText : FieldOperation N → String)
    (hw : s.OwnedWf o) (ho : s.storage = .owned o) (hn : o.source.length < 2 ^ 32)
    (c : FilteringCall N T) (h : c.run lower opText s = .ok s') : PushesNarrower o s s' := by
  cases c with
  | filter predicate => exact applyFilteredItems_narrower ho hw.storage.current.sorted h
  | filterByFieldOps name operations efficient =>
    exact hw.filterByFieldOps_narrower opText ho hn.le h
  | filterByFieldsOps fields efficient => exact hw.filterByFieldsOps_narrower opText ho hn.le h
  | searchWithText name query => exact hw.searchWithText_narrower lower ho hn h
  | searchComplexWordsText name orWords andWords notWords =>
    exact hw.searchComplexWordsText_narrower lower ho hn h

/-- The level pushed keeps the view well formed. -/
theorem OwnedWf.pushesNarrower (hw : s.OwnedWf o) (h : PushesNarrower o s s') :
    ∃ indices, s'.storage = .owned (o.pushLevel indices) ∧ s'.OwnedWf (o.pushLevel indices) ∧
      indices.Sublist o.currentIndices := by
  obtain ⟨indices, hs, hsub, hst, hidx, hm⟩ := h
  have hp : Positions o.source.length indices :=
    ⟨hs, fun i hi => hw.storage.current.lt i (hsub hi)⟩
  refine ⟨indices, hst, ⟨hw.storage.pushLevel hp, ?_, ?_⟩,
    hw.storage.current.sublist_of_subset hs hsub⟩
  · simpa using hm
  · rw [hidx]
    simpa using hw.indexes

/-! ### Every call keeps `Owned` views well formed -/

theorem OwnedWf.length_items_le (hw : s.OwnedWf o) (ho : s.storage = .owned o) :
    s.items.1.length ≤ o.source.length := by
  unfold items
  simp only [ho]
  split
  · exact hw.storage.cache _ ‹_›
  · exact hw.storage.length_rowsAt_current

theorem items_snd_of_owned (ho : s.storage = .owned o) :
    s.items.2 = s ∨ s.items.2 =
      { s with
        storage := .owned
          { o with currentCache := some (OwnedStorage.rowsAt o.source o.currentIndices) } } := by
  unfold items
  simp only [ho]
  split
  · exact .inl rfl
  · dsimp only
    split_ifs
    · exact .inr rfl
    · exact .inl rfl

/-- A view whose storage and mask are those of `s`, and whose indexes are
some of those of `s`. -/
theorem OwnedViewWf.of_indexes (hw : s.OwnedViewWf) (hst : s'.storage = s.storage)
    (hm : s'.sourceIndicesMask = s.sourceIndicesMask)
    (hi : ∀ name index, s'.indexes name = some index → s.indexes name = some index) :
    s'.OwnedViewWf := by
  intro o ho hn
  have hwo := hw o (hst ▸ ho) hn
  exact ⟨hwo.storage, fun m hm' => hwo.mask m (hm ▸ hm'),
    fun name index h => hwo.indexes name index (hi name index h)⟩

theorem OwnedViewWf.masked (hw : s.OwnedViewWf) (h : MaskedOrSame s s') : s'.OwnedViewWf := by
  intro o ho hn
  have ho₀ : s.storage = .owned o := h.storage ▸ ho
  exact (hw o ho₀ hn).masked ho₀ hn.le h

/-- A successful filtering call that leaves an `Owned` view over fewer than
`2^32` rows started from one over the same rows, pushed a level of its
current positions, and left the view well formed. -/
theorem OwnedViewWf.filtering_owned (lower : List Char → List Char)
    (opText : FieldOperation N → String) (hw : s.OwnedViewWf) (c : FilteringCall N T)
    (h : c.run lower opText s = .ok s') {o' : OwnedStorage T} (ho' : s'.storage = .owned o')
    (hn : o'.source.length < 2 ^ 32) :
    ∃ o indices, s.storage = .owned o ∧ o' = o.pushLevel indices ∧ o.source.length < 2 ^ 32 ∧
      s'.OwnedWf o' ∧ indices.Sublist o.currentIndices := by
  rcases c.run_ok lower opText h with ⟨o, indices, ho, hst⟩ | ⟨x, x', -, hst⟩
  · rw [hst, DataStorage.owned.injEq] at ho'
    subst ho'
    rw [OwnedStorage.pushLevel_source] at hn
    have hwo := hw o ho hn
    obtain ⟨indices', hst', hw', hsub⟩ := hwo.pushesNarrower (hwo.run_narrower lower opText ho hn c h)
    rw [hst, DataStorage.owned.injEq] at hst'
    rw [hst']
    exact ⟨o, indices', ho, rfl, hn, hw', hsub⟩
  · rw [hst] at ho'
    cases ho'

theorem OwnedViewWf.filtering (lower : List Char → List Char) (opText : FieldOperation N → String)
    (hw : s.OwnedViewWf) (c : FilteringCall N T) (h : c.run lower opText s = .ok s') :
    s'.OwnedViewWf := by
  intro o' ho' hn
  obtain ⟨-, -, -, -, -, hw', -⟩ := hw.filtering_owned lower opText c h ho' hn
  exact hw'

theorem OwnedWf.refreshMask {u : FilterData N T} (hs : o.Wf) (ho : u.storage = .owned o)
    (hn : o.source.length ≤ 2 ^ 32)
    (hi : ∀ name index, u.indexes name = some index → index.Fits o.source.length)
    (hm : o.source.length = 0 → ∀ m, u.sourceIndicesMask = some m → toIndices m = o.currentIndices) :
    u.refreshMask.OwnedWf o := by
  unfold FilterData.refreshMask
  simp only [parentData, ho, Option.map_some, Option.getD_some, currentIndices_of_owned ho]
  split_ifs with hpos hlt
  · exact ⟨hs, fun m hm' => by cases hm'; exact hs.current.toIndices_bitmapOfIndices hn, hi⟩
  · exact ⟨hs, (fun m hm' => by cases hm'), hi⟩
  · exact ⟨hs, hm (by omega), hi⟩

/-- `go_to_level` keeps the view well formed: the level's positions are
positions of the source, and the mask is recomputed from them, or, over an
empty source, every list of positions is empty. -/
theorem OwnedViewWf.goToLevel (hw : s.OwnedViewWf) (t : Nat) : (s.goToLevel t).OwnedViewWf := by
  unfold FilterData.goToLevel
  dsimp only
  split
  · exact hw
  · intro o' ho' hn
    rw [refreshMask_storage] at ho'
    cases hs : s.storage with
    | indexed x =>
      rw [hs] at ho'
      cases ho'
    | owned o =>
      rw [hs] at ho'
      have hsrc := OwnedStorage.source_of_goToLevel ho'
      have hwo := hw o hs (hsrc ▸ hn)
      have hs' := hwo.storage.goToLevel ho'
      refine OwnedWf.refreshMask hs' ho' hn.le (hsrc ▸ hwo.indexes) fun h0 m hm => ?_
      rw [hwo.mask m hm, hwo.storage.current.eq_nil (hsrc ▸ h0), hs'.current.eq_nil h0]

theorem OwnedViewWf.up (hw : s.OwnedViewWf) : s.up.OwnedViewWf := by
  unfold FilterData.up
  split_ifs
  · exact hw.goToLevel _
  · exact hw

theorem OwnedViewWf.resetToSource (hw : s.OwnedViewWf) : s.resetToSource.OwnedViewWf := by
  intro o' ho' hn
  cases hs : s.storage with
  | owned o =>
    simp only [FilterData.resetToSource, hs, DataStorage.owned.injEq] at ho'
    subst ho'
    have hwo := hw o hs hn
    exact ⟨hwo.storage.resetToSource, (fun m hm => by cases hm), hwo.indexes⟩
  | indexed x => simp [FilterData.resetToSource, hs] at ho'

theorem OwnedViewWf.items (hw : s.OwnedViewWf) : s.items.2.OwnedViewWf := by
  cases hs : s.storage with
  | owned o =>
    rcases items_snd_of_owned hs with h | h
    · rwa [h]
    · rw [h]
      intro o' ho' hn
      simp only [DataStorage.owned.injEq] at ho'
      subst ho'
      have hwo := hw o hs hn
      exact ⟨hwo.storage.cacheRows, hwo.mask, hwo.indexes⟩
  | indexed x => rwa [IsIndexed.items_snd ⟨x, hs⟩]

/-- The rows `items()` returns are at most the rows of the source, which
`items()` keeps. -/
theorem OwnedViewWf.length_items_le (hw : s.OwnedViewWf) (ho : s.items.2.storage = .owned o)
    (hn : o.source.length < 2 ^ 32) : s.items.1.length ≤ o.source.length := by
  cases hs : s.storage with
  | owned o₀ =>
    have hsrc : o.source = o₀.source := by
      rcases items_snd_of_owned hs with h | h <;> rw [h] at ho
      · rw [hs, DataStorage.owned.injEq] at ho
        rw [ho]
      · rw [DataStorage.owned.injEq] at ho
        rw [← ho]
    rw [hsrc] at hn ⊢
    exact (hw o₀ hs hn).length_items_le hs
  | indexed x =>
    rw [IsIndexed.items_snd ⟨x, hs⟩, hs] at ho
    cases ho

theorem OwnedViewWf.dropIndex (hw : s.OwnedViewWf) (name : String) :
    (s.dropIndex name).OwnedViewWf :=
  hw.of_indexes rfl rfl fun name' index h => by
    simp only [FilterData.dropIndex, Function.update_apply] at h
    split_ifs at h
    exact h

theorem OwnedViewWf.replaceIndex (hw : s.OwnedViewWf) {name expectedType : String}
    (h : s.replaceIndex name expectedType = .ok s₁) : s₁.OwnedViewWf := by
  unfold FilterData.replaceIndex at h
  split_ifs at h
  · split at h
    · cases h
    · cases h
      exact hw.dropIndex name
  · cases h
    exact hw

theorem OwnedViewWf.insertIndex (hw : s.OwnedViewWf) {name : String} {index : IndexType N T}
    (hfit : ∀ o, s.storage = .owned o → o.source.length < 2 ^ 32 → index.Fits o.source.length) :
    (s.insertIndex name index).OwnedViewWf := by
  intro o ho hn
  have hwo := hw o ho hn
  refine ⟨hwo.storage, hwo.mask, fun name' index' h => ?_⟩
  simp only [FilterData.insertIndex, Function.update_apply] at h
  split_ifs at h
  · cases h
    exact hfit o ho hn
  · exact hwo.indexes name' index' h

/-- A field index is built over the rows of `items()`, so it answers rows
of the source. -/
theorem OwnedViewWf.createFieldIndex (hw : s.OwnedViewWf) {name : String} {ty : FieldType}
    {extractor : T → ty.Carrier N}
    (h : s.createFieldIndex name ty extractor = .ok s' ∨
      ∃ e, s.createFieldIndex name ty extractor = .err e s') : s'.OwnedViewWf := by
  unfold FilterData.createFieldIndex at h
  split at h
  · rcases h with h | ⟨e, h⟩ <;> cases h
    exact hw
  · rename_i s₁ hs₁
    rcases h with h | ⟨e, h⟩ <;> cases h
    have hw₁ := hw.replaceIndex hs₁
    refine hw₁.items.insertIndex fun o ho hn => ⟨IndexField.bounded_build _ _, ?_⟩
    rw [IndexFieldEnum.len, IndexField.build_size]
    exact hw₁.length_items_le ho hn

/-- A text index is built over the rows of `items()` as `build` leaves it. -/
theorem OwnedViewWf.createTextIndex (lower : List Char → List Char) (hw : s.OwnedViewWf)
    {name : String} {extractor : T → List Char}
    (h : s.createTextIndex lower name extractor = .ok s' ∨
      ∃ e, s.createTextIndex lower name extractor = .err e s') : s'.OwnedViewWf := by
  unfold FilterData.createTextIndex at h
  split at h
  · rcases h with h | ⟨e, h⟩ <;> cases h
    exact hw
  · rename_i s₁ hs₁
    dsimp only at h
    split at h
    · rename_i index hbuild
      rcases h with h | ⟨e, h⟩ <;> cases h
      have hw₁ := hw.replaceIndex hs₁
      obtain ⟨hc, -, -, htotal⟩ := TextIndex.build_new lower hbuild
      refine hw₁.items.insertIndex fun o ho hn => ⟨hc, ?_⟩
      rw [htotal]
      exact hw₁.length_items_le ho hn
    · rcases h with h | ⟨e, h⟩ <;> cases h

theorem OwnedViewWf.releaseParent (hw : s.OwnedViewWf) : s.releaseParent.OwnedViewWf := by
  unfold FilterData.releaseParent
  split
  · exact hw
  · intro o ho
    cases ho

section Runs

variable (lower : List Char → List Char) (opText : FieldOperation N → String)

/-- Every call keeps `Owned` views well formed. -/
theorem OwnedViewWf.step (hw : s.OwnedViewWf) (hst : Step lower opText s s') : s'.OwnedViewWf := by
  obtain ⟨c, hc⟩ := hst
  cases c with
  | filtering call =>
    rcases hc with hc | ⟨e, hc⟩
    · exact hw.filtering lower opText call hc
    · exact hw.masked (call.run_err lower opText hc)
  | goToLevel targetLevel =>
    rw [Outcome.eq_of_ok hc]
    exact hw.goToLevel targetLevel
  | up =>
    rw [Outcome.eq_of_ok hc]
    exact hw.up
  | resetToSource =>
    rw [Outcome.eq_of_ok hc]
    exact hw.resetToSource
  | createFieldIndex name ty extractor => exact hw.createFieldIndex hc
  | createTextIndex name extractor => exact hw.createTextIndex lower hc
  | dropIndex name =>
    rw [Outcome.eq_of_ok hc]
    exact hw.dropIndex name
  | clearFiledIndex =>
    rw [Outcome.eq_of_ok hc]
    exact hw.of_indexes rfl rfl fun _ _ h => (Option.filter_eq_some_iff.mp h).1
  | clearTextIndexes =>
    rw [Outcome.eq_of_ok hc]
    exact hw.of_indexes rfl rfl fun _ _ h => (Option.filter_eq_some_iff.mp h).1
  | clearAllIndexes =>
    rw [Outcome.eq_of_ok hc]
    exact hw.of_indexes rfl rfl fun _ _ h => by cases h
  | items =>
    rw [Outcome.eq_of_ok hc]
    exact hw.items
  | releaseParent =>
    rw [Outcome.eq_of_ok hc]
    exact hw.releaseParent

theorem ownedViewWf_initial (hs : Initial s) : s.OwnedViewWf := by
  rcases hs with ⟨items, rfl⟩ | ⟨parent, indices, rfl⟩
  · intro o ho _
    simp only [fromVec, DataStorage.owned.injEq] at ho
    subst ho
    refine ⟨⟨rfl, Positions.range _, ?_, (fun c hc => by cases hc), by simp⟩,
      (fun m hm => by cases hm), fun name index h => by cases h⟩
    simpa using Positions.range _
  · intro o ho
    cases ho

/-- Every `Owned` view a run of calls reaches over fewer than `2^32` rows is
well formed. -/
theorem ownedViewWf_of_reachable (hr : s.Reachable lower opText) : s.OwnedViewWf :=
  Transition.Reachable.invariant (fun u (hu : Initial u) => ownedViewWf_initial hu)
    (fun u u' (hw : u.OwnedViewWf) (hst : Step lower opText u u') => hw.step lower opText hst) hr

/-- On every `Owned` view a run of calls reaches over fewer than `2^32`
rows, the current positions and those of every stored level increase and
lie below the row count, and the mask, when set, holds exactly the current
positions. -/
theorem owned_mask_is_current (hr : s.Reachable lower opText) (ho : s.storage = .owned o)
    (hn : o.source.length < 2 ^ 32) :
    Positions o.source.length o.currentIndices ∧
      (∀ l ∈ o.levelIndices, Positions o.source.length l) ∧
      ∀ m, s.sourceIndicesMask = some m → toIndices m = o.currentIndices := by
  have hw := ownedViewWf_of_reachable lower opText hr o ho hn
  exact ⟨hw.storage.current, hw.storage.levelIndices, hw.mask⟩

theorem owned_mask_is_current_fromVec :
    (fromVec [1, 2] : FilterData Numerics.exactRat Nat).Reachable id (fun _ => "") ∧
      (fromVec [1, 2] : FilterData Numerics.exactRat Nat).storage =
        .owned ⟨[1, 2], [0, 1], none, [0, 1], [[1, 2]], [[0, 1]]⟩ ∧
      [1, 2].length < 2 ^ 32 ∧
      (Positions [1, 2].length [0, 1] ∧ (∀ l ∈ [[0, 1]], Positions [1, 2].length l) ∧
        ∀ m, (fromVec [1, 2] : FilterData Numerics.exactRat Nat).sourceIndicesMask = some m →
          toIndices m = [0, 1]) :=
  ⟨.init (.inl ⟨_, rfl⟩), rfl, by decide,
    owned_mask_is_current id (fun _ => "") (.init (.inl ⟨_, rfl⟩)) rfl (by decide)⟩

/-- A successful filtering call on an `Owned` view a run of calls reaches,
over fewer than `2^32` rows, keeps a sublist of the current positions:
whichever path it takes (the predicate scan, a field index through the
mask, a text search), it brings back no row filtered away before. -/
theorem filtering_narrows_owned (hr : s.Reachable lower opText) (ho : s.storage = .owned o)
    (hn : o.source.length < 2 ^ 32) (c : FilteringCall N T) (h : c.run lower opText s = .ok s') :
    s'.currentIndices.Sublist s.currentIndices := by
  have hw := ownedViewWf_of_reachable lower opText hr o ho hn
  obtain ⟨indices, hst, -, hsub⟩ := hw.pushesNarrower (hw.run_narrower lower opText ho hn c h)
  rw [currentIndices_of_owned hst, currentIndices_of_owned ho,
    OwnedStorage.pushLevel_currentIndices]
  exact hsub

/-- Keeping row `2` of `[1, 2, 3]`. -/
theorem filtering_narrows_owned_keep_two :
    (fromVec [1, 2, 3] : FilterData Numerics.exactRat Nat).Reachable id (fun _ => "") ∧
      (fromVec [1, 2, 3] : FilterData Numerics.exactRat Nat).storage =
        .owned ⟨[1, 2, 3], [0, 1, 2], none, [0, 1, 2], [[1, 2, 3]], [[0, 1, 2]]⟩ ∧
      [1, 2, 3].length < 2 ^ 32 ∧
      (FilteringCall.filter fun x => decide (x = 2)).run id (fun _ => "")
          (fromVec [1, 2, 3] : FilterData Numerics.exactRat Nat) =
        .ok (((fromVec [1, 2, 3] : FilterData Numerics.exactRat Nat).filter
          fun x => decide (x = 2)).ok?.getD (fromVec [1, 2, 3])) ∧
      (((fromVec [1, 2, 3] : FilterData Numerics.exactRat Nat).filter
          fun x => decide (x = 2)).ok?.getD (fromVec [1, 2, 3])).currentIndices.Sublist
        (fromVec [1, 2, 3] : FilterData Numerics.exactRat Nat).currentIndices :=
  ⟨.init (.inl ⟨_, rfl⟩), rfl, by decide, rfl,
    filtering_narrows_owned id (fun _ => "") (.init (.inl ⟨_, rfl⟩)) rfl (by decide)
      (.filter fun x => decide (x = 2)) rfl⟩

end Runs

end FilterData

end TreeMan
