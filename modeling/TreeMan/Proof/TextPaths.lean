import Mathlib
import TreeMan.Proof.FieldPaths

/-!
# A text search keeps the rows a scan keeps

`search_with_text` and `search_complex_words_text` answer through a
tri-gram index, narrow its rows to the current ones (`narrowToCurrent`) and
push them as a level. On an `Owned` view whose text index was built over the
rows of the source, this is what `filter` with the substring test pushes:

* `matchingRows_eq_keepMatching`, `complexWordsRows_eq_keepMatching`: what
  the index answers, as the source rows of which a test on the row's
  lower-cased text holds (`matchesComplexWords` for a complex query);
* `OwnedWf.narrowToCurrent_keepMatching`: narrowing those rows to the current
  ones keeps the current positions the test holds of; everything about the
  two searches follows from this one equation;
* `searchWithText_keeps_scan_rows`, `searchComplexWordsText_keeps_scan_rows`.

An index built over a narrowed view answers positions of that view, which
the search reads as positions of the source: there the search keeps rows
whose text does not hold the query (`text_search_after_filter_keeps_wrong_row`).
-/

namespace TreeMan

section Queries

open FilterData

variable (lower : List Char → List Char)

/-- Whether a lower-cased text answers `(or₁ OR ...) AND and₁ AND ... AND
NOT not₁ ...`: an empty word is found in no text, and with no `OR` word the
`OR` part holds. -/
def matchesComplexWords (orWords andWords notWords : List (List Char)) (text : List Char) : Bool :=
  (orWords.isEmpty || orWords.any fun w => !w.isEmpty && contains text (lower w)) &&
    (andWords.all fun w => !w.isEmpty && contains text (lower w)) &&
      notWords.all fun w => w.isEmpty || !contains text (lower w)

variable {T : Type}

theorem mem_keepMatching {rows : List T} {predicate : T → Bool} {indices : List Nat} {i : Nat} :
    i ∈ keepMatching rows predicate indices ↔ i ∈ indices ∧ rows[i]?.any predicate = true := by
  simp only [keepMatching, List.mem_filter]

/-- The rows of the texts `f` gives of the source rows, read by row, are the
source rows a test of their text holds of. -/
theorem filter_range_map_eq_keepMatching (rows : List T) (f : T → List Char)
    (p : List Char → Bool) :
    (List.range (rows.map f).length).filter (fun i => p ((rows.map f).getD i [])) =
      keepMatching rows (fun x => p (f x)) (List.range rows.length) := by
  rw [List.length_map, keepMatching]
  refine List.filter_congr fun i hi => ?_
  have hlt := List.mem_range.mp hi
  simp [List.getD_eq_getElem?_getD, hlt]

theorem matchingRows_eq_keepMatching (rows : List T) (f : T → List Char) (query : List Char) :
    TextIndex.matchingRows (rows.map f) query =
      keepMatching rows (fun x => contains (f x) query) (List.range rows.length) :=
  filter_range_map_eq_keepMatching rows f fun text => contains text query

/-- Row `i` is among the rows of a word exactly when the word is not empty
and the row's text contains it. -/
theorem mem_wordRows {texts : List (List Char)} {w : List Char} {i : Nat} (hi : i < texts.length) :
    i ∈ TextIndex.wordRows lower texts w ↔ (!w.isEmpty && contains (texts.getD i []) (lower w)) = true := by
  unfold TextIndex.wordRows TextIndex.matchingRows
  by_cases hw : w = []
  · simp [hw]
  · simp [hw, hi]

/-- The rows that pass `search_complex_words` are the scan's, reading each
word's rows at each row. -/
theorem complexWordsRows_eq_keepMatching (rows : List T) (f : T → List Char)
    (orWords andWords notWords : List (List Char)) :
    TextIndex.complexWordsRows lower (rows.map f) orWords andWords notWords =
      keepMatching rows (fun x => matchesComplexWords lower orWords andWords notWords (f x))
        (List.range rows.length) := by
  rw [← filter_range_map_eq_keepMatching rows f (matchesComplexWords lower orWords andWords notWords)]
  unfold TextIndex.complexWordsRows
  refine List.filter_congr fun i hi => ?_
  have hlt := List.mem_range.mp hi
  have hword : ∀ w, decide (i ∈ TextIndex.wordRows lower (rows.map f) w) =
      (!w.isEmpty && contains ((rows.map f).getD i []) (lower w)) :=
    fun w => Bool.eq_iff_iff.mpr (by rw [decide_eq_true_iff]; exact mem_wordRows lower (by simpa using hlt))
  simp [matchesComplexWords, hword]

end Queries

namespace FilterData

variable {N : Numerics} {T : Type} {s s₁ : FilterData N T} {o : OwnedStorage T}

/-! ### Narrowing to the current positions -/

/-- Narrowing the source rows a predicate holds of to the current ones
keeps the current positions it holds of: all of those rows when every row
is current, else the intersection of the two bitmaps, the two lists
agreeing on every current position. -/
theorem OwnedWf.narrowToCurrent_keepMatching (hw : s.OwnedWf o) (ho : s.storage = .owned o)
    (hn : o.source.length ≤ 2 ^ 32) (predicate : T → Bool) :
    s.narrowToCurrent (keepMatching o.source predicate (List.range o.source.length)) =
      keepMatching o.source predicate o.currentIndices := by
  have hcur := hw.storage.current
  have htext : Positions o.source.length
      (keepMatching o.source predicate (List.range o.source.length)) :=
    (Positions.range _).filter _
  have hmem : ∀ i ∈ o.currentIndices,
      i ∈ keepMatching o.source predicate (List.range o.source.length) ↔
        i ∈ keepMatching o.source predicate o.currentIndices := by
    intro i hi
    rw [mem_keepMatching, mem_keepMatching, List.mem_range]
    exact ⟨fun h => ⟨hi, h.2⟩, fun h => ⟨hcur.lt i hi, h.2⟩⟩
  unfold narrowToCurrent
  simp only [currentIndices_of_owned ho, parentData, ho, Option.map_some, Option.getD_some]
  split_ifs with hlen
  · rw [hcur.eq_range hlen.ge]
  · unfold intersectIndices
    split_ifs with hempty
    · simp only [Bool.or_eq_true, List.isEmpty_iff] at hempty
      refine (List.eq_nil_iff_forall_not_mem.mpr fun i hi => ?_).symm
      have hi' := (mem_keepMatching.mp hi).1
      rcases hempty with he | he
      · rw [he] at hi'
        exact List.not_mem_nil hi'
      · have := (hmem i hi').mpr hi
        rw [he] at this
        exact List.not_mem_nil this
    · refine List.Pairwise.eq_of_mem_iff (SortedSet.sorted _) (hcur.sorted.filter _) fun x => ?_
      change x ∈ (bitmapOfIndices o.currentIndices).inter _ ↔ _
      rw [SortedSet.mem_inter, hcur.mem_bitmapOfIndices_iff hn, htext.mem_bitmapOfIndices_iff hn]
      exact ⟨fun h => (hmem x h.1).mp h.2,
        fun h => ⟨(mem_keepMatching.mp h).1, (hmem x (mem_keepMatching.mp h).1).mpr h⟩⟩

/-- The source rows a predicate holds of make the tail of a text search
push what `filter` with the predicate pushes. -/
theorem OwnedWf.applyTextIndices_eq_filter (hw : s.OwnedWf o) (ho : s.storage = .owned o)
    (hn : o.source.length ≤ 2 ^ 32) {predicate : T → Bool} {name desc : String}
    (h : s.applyTextIndices name (keepMatching o.source predicate (List.range o.source.length))
      desc = .ok s₁) :
    ∃ s₂, s.filter predicate = .ok s₂ ∧ s₂.storage = s₁.storage := by
  unfold applyTextIndices at h
  rw [hw.narrowToCurrent_keepMatching ho hn predicate] at h
  dsimp only at h
  split_ifs at h with htext hne hparent
  unfold applyFilteredItemsWithIndices applyFilteredIndices at h
  simp only [ho] at h
  split_ifs at h with hl
  cases h
  obtain ⟨s₂, hs₂, hst⟩ := filter_ok_owned ho hl (by simpa using hne)
  exact ⟨s₂, hs₂, hst⟩

/-! ### Text indexes built over the source -/

variable (lower : List Char → List Char)

/-- The text index `name` of the view is the tri-gram index
`create_text_index` builds over `rows` with `extractor`. -/
def TextIndexOver (s : FilterData N T) (rows : List T) (name : String)
    (extractor : T → List Char) : Prop :=
  ∃ idx, s.indexes name = some (.text idx) ∧ TextIndex.newTriGram.build lower rows extractor = some idx

variable {lower} {rows : List T} {name : String} {extractor : T → List Char}

/-- Rows a text index built over `rows` answers for a query: none for the
empty query, else the rows whose lower-cased text contains it. -/
theorem TextIndexOver.getIndicesWithText (h : s.TextIndexOver lower rows name extractor)
    (hn : rows.length < 2 ^ 32) {query : List Char} {textIndices : List Nat}
    (hs : s.getIndicesWithText lower name query = some (.ok textIndices)) (hne : textIndices ≠ []) :
    textIndices = keepMatching rows (fun x => contains (lower (extractor x)) (lower query))
      (List.range rows.length) := by
  obtain ⟨idx, hidx, hb⟩ := h
  obtain ⟨hc, -, htexts, htotal⟩ := TextIndex.build_new lower hb
  simp only [FilterData.getIndicesWithText, hidx, IndexType.asText, Option.map_eq_some_iff,
    Except.ok.injEq] at hs
  obtain ⟨found, hsearch, rfl⟩ := hs
  rw [TextIndex.search_eq_matchingRows lower hc (htotal ▸ hn)] at hsearch
  split_ifs at hsearch
  · cases hsearch
    exact absurd rfl hne
  · obtain ⟨_, -, rfl⟩ := Option.map_eq_some_iff.mp hsearch
    rw [htexts, matchingRows_eq_keepMatching]

/-- Rows a text index built over `rows` answers for a complex query: the
rows whose lower-cased text answers it. -/
theorem TextIndexOver.getIndicesComplexWords (h : s.TextIndexOver lower rows name extractor)
    (hn : rows.length < 2 ^ 32) {orWords andWords notWords : List (List Char)} {found : List Nat}
    (hs : s.getIndicesComplexWords lower name orWords andWords notWords = some (.ok found)) :
    found = keepMatching rows
      (fun x => matchesComplexWords lower orWords andWords notWords (lower (extractor x)))
      (List.range rows.length) := by
  obtain ⟨idx, hidx, hb⟩ := h
  obtain ⟨hc, -, htexts, htotal⟩ := TextIndex.build_new lower hb
  simp only [FilterData.getIndicesComplexWords, hidx, IndexType.asText, Option.map_eq_some_iff,
    Except.ok.injEq] at hs
  obtain ⟨found', hsearch, rfl⟩ := hs
  rw [TextIndex.searchComplexWords_eq lower hc (htotal ▸ hn)] at hsearch
  split_ifs at hsearch
  cases hsearch
  rw [htexts, complexWordsRows_eq_keepMatching]

/-! ### Whatever the index answers, the scan keeps the same rows -/

section Runs

variable (lower) (opText : FieldOperation N → String)

/-- On every `Owned` view a run of calls reaches over fewer than `2^32`
rows, `search_with_text` on a text index built over the source rows leaves
on success the storage (current positions, levels and cache) that `filter`
leaves with the test "the lower-cased text contains the lower-cased
query". The index answers no rows only where the tail of the call fails. -/
theorem searchWithText_keeps_scan_rows {query : List Char} (hr : s.Reachable lower opText)
    (ho : s.storage = .owned o) (hn : o.source.length < 2 ^ 32)
    (hidx : s.TextIndexOver lower o.source name extractor)
    (h : s.searchWithText lower name query = .ok s₁) :
    ∃ s₂, s.filter (fun x => contains (lower (extractor x)) (lower query)) = .ok s₂ ∧
      s₂.storage = s₁.storage := by
  have hw := ownedViewWf_of_reachable lower opText hr o ho hn
  unfold searchWithText at h
  split at h
  · cases h
  · cases h
  · rename_i textIndices hs
    have hne : textIndices ≠ [] := by
      rintro rfl
      simp [applyTextIndices] at h
    rw [hidx.getIndicesWithText hn hs hne] at h
    exact hw.applyTextIndices_eq_filter ho hn.le h

/-- The texts `abcd`, `bcd` and `xyz`, with a text index `t` created over
them. -/
def textIndexOnSource : FilterData Numerics.exactRat (List Char) :=
  ((fromVec [['a', 'b', 'c', 'd'], ['b', 'c', 'd'], ['x', 'y', 'z']]).createTextIndex id "t" id).ok?.getD
    (fromVec [])

theorem reachable_textIndexOnSource : textIndexOnSource.Reachable id (fun _ => "") :=
  .step (.init (.inl ⟨[['a', 'b', 'c', 'd'], ['b', 'c', 'd'], ['x', 'y', 'z']], rfl⟩))
    ⟨.createTextIndex "t" id, .inl (Outcome.eq_ok_getD _ (by decide +kernel))⟩

theorem textIndexOver_textIndexOnSource :
    textIndexOnSource.TextIndexOver id [['a', 'b', 'c', 'd'], ['b', 'c', 'd'], ['x', 'y', 'z']] "t" id :=
  ⟨_, rfl, rfl⟩

/-- A search for `b` in the texts `abcd`, `bcd` and `xyz`. -/
theorem searchWithText_keeps_scan_rows_b :
    textIndexOnSource.Reachable id (fun _ => "") ∧
      textIndexOnSource.TextIndexOver id [['a', 'b', 'c', 'd'], ['b', 'c', 'd'], ['x', 'y', 'z']] "t" id ∧
      ∃ s₂, textIndexOnSource.filter (fun x => contains x ['b']) = .ok s₂ ∧
        s₂.storage = ((textIndexOnSource.searchWithText id "t" ['b']).ok?.getD
          textIndexOnSource).storage := by
  have h : textIndexOnSource.searchWithText id "t" ['b'] =
      .ok ((textIndexOnSource.searchWithText id "t" ['b']).ok?.getD textIndexOnSource) :=
    Outcome.eq_ok_getD _ (by decide +kernel)
  exact ⟨reachable_textIndexOnSource, textIndexOver_textIndexOnSource,
    searchWithText_keeps_scan_rows id (fun _ => "")
      (o := ⟨[['a', 'b', 'c', 'd'], ['b', 'c', 'd'], ['x', 'y', 'z']], [0, 1, 2],
        some [['a', 'b', 'c', 'd'], ['b', 'c', 'd'], ['x', 'y', 'z']], [0, 1, 2],
        [[['a', 'b', 'c', 'd'], ['b', 'c', 'd'], ['x', 'y', 'z']]], [[0, 1, 2]]⟩)
      reachable_textIndexOnSource rfl (by decide) textIndexOver_textIndexOnSource h⟩

/-- On every `Owned` view a run of calls reaches over fewer than `2^32`
rows, `search_complex_words_text` on a text index built over the source rows
leaves on success the storage that `filter` leaves with the test
`matchesComplexWords` on the row's lower-cased text. -/
theorem searchComplexWordsText_keeps_scan_rows {orWords andWords notWords : List (List Char)}
    (hr : s.Reachable lower opText) (ho : s.storage = .owned o) (hn : o.source.length < 2 ^ 32)
    (hidx : s.TextIndexOver lower o.source name extractor)
    (h : s.searchComplexWordsText lower name orWords andWords notWords = .ok s₁) :
    ∃ s₂, s.filter (fun x => matchesComplexWords lower orWords andWords notWords (lower (extractor x))) =
      .ok s₂ ∧ s₂.storage = s₁.storage := by
  have hw := ownedViewWf_of_reachable lower opText hr o ho hn
  unfold searchComplexWordsText at h
  split at h
  · cases h
  · cases h
  · rename_i found hs
    rw [hidx.getIndicesComplexWords hn hs] at h
    exact hw.applyTextIndices_eq_filter ho hn.le h

/-- A search for `b` and not `a` in the texts `abcd`, `bcd` and `xyz`. -/
theorem searchComplexWordsText_keeps_scan_rows_b_not_a :
    textIndexOnSource.Reachable id (fun _ => "") ∧
      textIndexOnSource.TextIndexOver id [['a', 'b', 'c', 'd'], ['b', 'c', 'd'], ['x', 'y', 'z']] "t" id ∧
      ∃ s₂, textIndexOnSource.filter (fun x => matchesComplexWords id [] [['b']] [['a']] x) =
          .ok s₂ ∧
        s₂.storage = ((textIndexOnSource.searchComplexWordsText id "t" [] [['b']] [['a']]).ok?.getD
          textIndexOnSource).storage := by
  have h : textIndexOnSource.searchComplexWordsText id "t" [] [['b']] [['a']] =
      .ok ((textIndexOnSource.searchComplexWordsText id "t" [] [['b']] [['a']]).ok?.getD
        textIndexOnSource) := Outcome.eq_ok_getD _ (by decide +kernel)
  exact ⟨reachable_textIndexOnSource, textIndexOver_textIndexOnSource,
    searchComplexWordsText_keeps_scan_rows id (fun _ => "")
      (o := ⟨[['a', 'b', 'c', 'd'], ['b', 'c', 'd'], ['x', 'y', 'z']], [0, 1, 2],
        some [['a', 'b', 'c', 'd'], ['b', 'c', 'd'], ['x', 'y', 'z']], [0, 1, 2],
        [[['a', 'b', 'c', 'd'], ['b', 'c', 'd'], ['x', 'y', 'z']]], [[0, 1, 2]]⟩)
      reachable_textIndexOnSource rfl (by decide) textIndexOver_textIndexOnSource h⟩

end Runs

end FilterData

end TreeMan
