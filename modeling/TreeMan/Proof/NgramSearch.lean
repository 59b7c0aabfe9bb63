import Mathlib
import TreeMan.Impl.Text

/-!
# The n-gram search against a scan of every row

`TextIndex::search` answers a query of at least `n` bytes through the index:
the rows holding every n-gram of the query (`find_candidates_with_bitindex`)
are checked with `contains`. This is meant to answer what `linear_search`
over every row answers, and it does on any index that `build` left
(`Consistent`, kept by `build` from `new`): `search_eq_matchingRows` gives
`search` as the rows whose text contains the query, for every query, with a
panic exactly when the n-grams of the query cannot be extracted. The
argument is that a text containing the query holds every n-gram of it
(`mem_gramsOf_of_infix`), so no matching row is lost before the check.

`searchComplexWords_eq` gives `search_complex_words` in the same terms: the
rows that contain one of the `OR` words (any row when there is none), every
`AND` word and no `NOT` word, the early returns included.

Both need fewer than `2³²` rows, the range of the `u32` positions of a
`RoaringBitmap`. The panics are real: extraction panics on a non-ASCII text
of at least `n` bytes and fewer than `n` characters, such as `éé`
(`extractNgrams_panics_on_two_accents`), so building over it panics, and so
does searching for it, alone or as a word of `search_complex_words`
(`build_and_search_panic_on_two_accents`,
`searchComplexWords_panics_on_accented_word`).
-/

namespace TreeMan

namespace TextIndex

/-- The n-grams `build` files a text under; none for a text whose
extraction panics. -/
def gramsOf (n : Nat) (text : List Char) : List (List Char) := (extractNgrams n text).getD []

/-- The rows whose text contains the query, in increasing order: the answer
of a scan of every row. -/
def matchingRows (texts : List (List Char)) (query : List Char) : List Nat :=
  (List.range texts.length).filter fun i => contains (texts.getD i []) query

/-- What `build` leaves: a text for each row, each text's n-grams
extractable, and the bitmap of each n-gram holding exactly the rows whose
text has it, every such n-gram being filed. -/
structure Consistent (idx : TextIndex) : Prop where
  length_itemTexts : idx.itemTexts.length = idx.totalItems
  extracts : ∀ text ∈ idx.itemTexts, (extractNgrams idx.n text).isSome
  mem_bitmap : ∀ g b, idx.ngrams.find? g = some b → ∀ x,
    x ∈ b.bitmap ↔ ∃ i < idx.totalItems, asU32 i = x ∧ g ∈ gramsOf idx.n (idx.itemTexts.getD i [])
  find?_isSome : ∀ i < idx.totalItems, ∀ g ∈ gramsOf idx.n (idx.itemTexts.getD i []),
    (idx.ngrams.find? g).isSome

/-! ### `build` keeps the index consistent -/

theorem mem_rowNgrams {n : Nat} {texts : List (List Char)} {g : List Char} {i : Nat} :
    (g, i) ∈ rowNgrams n texts ↔ i < texts.length ∧ g ∈ gramsOf n (texts.getD i []) := by
  simp only [rowNgrams, List.mem_flatMap, List.mem_map, Prod.mk.injEq]
  constructor
  · rintro ⟨⟨t, j⟩, hj, g', hg', rfl, rfl⟩
    have ht := List.mk_mem_zipIdx_iff_getElem?.mp hj
    have hlt : j < texts.length := (List.getElem?_eq_some_iff.mp ht).1
    refine ⟨hlt, ?_⟩
    rw [List.getD_eq_getElem?_getD, ht]
    exact hg'
  · rintro ⟨hlt, hg⟩
    refine ⟨(texts[i], i), List.mk_mem_zipIdx_iff_getElem?.mpr (List.getElem?_eq_getElem hlt),
      g, ?_, rfl, rfl⟩
    rwa [List.getD_eq_getElem?_getD, List.getElem?_eq_getElem hlt, Option.getD_some] at hg

theorem consistent_new (n : Nat) : (new n).Consistent where
  length_itemTexts := rfl
  extracts := by simp [new]
  mem_bitmap := by simp [new, SortedMap.find?_empty]
  find?_isSome := by simp [new]

variable (lower : List Char → List Char)

/-- `build` over rows leaves a consistent index, whatever it held before:
the list an n-gram collects is its rows, in the order of `rowNgrams`. -/
theorem Consistent.build {α : Type} {self idx : TextIndex} {items : List α}
    {extractor : α → List Char} (hc : self.Consistent)
    (h : self.build lower items extractor = some idx) : idx.Consistent := by
  unfold TextIndex.build at h
  dsimp only at h
  split_ifs at h with he hall
  · rwa [← Option.some.inj h]
  obtain rfl := Option.some.inj h
  set texts := items.map fun item => lower (extractor item)
  have hlen : texts.length = items.length := List.length_map _
  have hget (g : List Char) (i : Nat) :
      i ∈ ((rowNgrams self.n texts).foldl (fun m p => m.push p.1 p.2) SortedMap.empty).getD g [] ↔
        (g, i) ∈ rowNgrams self.n texts := by
    rw [SortedMap.getD_foldl_push, SortedMap.getD, SortedMap.find?_empty]
    simp only [Option.getD_none, List.nil_append, List.mem_map, List.mem_filter,
      decide_eq_true_eq]
    constructor
    · rintro ⟨⟨g', i'⟩, ⟨hp, rfl⟩, rfl⟩
      exact hp
    · intro hp
      exact ⟨(g, i), ⟨hp, rfl⟩, rfl⟩
  refine ⟨hlen, fun text ht => ?_, fun g b hb x => ?_, fun i hi g hg => ?_⟩
  · simp only [List.all_eq_true] at hall
    exact hall text ht
  · simp only [SortedMap.find?_mapValues, Option.map_eq_some_iff] at hb
    obtain ⟨l, hl, rfl⟩ := hb
    have hl' (i : Nat) : i ∈ l ↔ (g, i) ∈ rowNgrams self.n texts := by
      rw [← hget, SortedMap.getD, hl, Option.getD_some]
    simp only [BitIndex.fromIndices, mem_bitmapOfIndices, List.mem_dedup, List.mem_mergeSort,
      hl', mem_rowNgrams, hlen]
    constructor
    · rintro ⟨i, ⟨hi, hgi⟩, rfl⟩
      exact ⟨i, hi, rfl, hgi⟩
    · rintro ⟨i, hi, rfl, hgi⟩
      exact ⟨i, ⟨hi, hgi⟩, rfl⟩
  · simp only [SortedMap.find?_mapValues, Option.isSome_map]
    refine (SortedMap.find?_foldl_push_isSome _ _ _ _ _).mpr (.inr ⟨(g, i), ?_, rfl⟩)
    exact mem_rowNgrams.mpr ⟨hlen ▸ hi, hg⟩

/-! ### What the index answers -/

section Search

variable {idx : TextIndex}

theorem contains_iff {text query : List Char} : contains text query = true ↔ query <:+: text :=
  decide_eq_true_iff

/-- A text whose n-grams extract and that is at least `n` bytes long is at
least `n` characters long. -/
theorem le_length_of_extractNgrams {n : Nat} {text : List Char}
    (hb : n ≤ String.utf8Len text) (hs : (extractNgrams n text).isSome) : n ≤ text.length := by
  by_contra hlt
  have hascii : isAscii text = false := by
    by_contra ha
    rw [utf8Len_of_isAscii (Bool.not_eq_false _ ▸ ha)] at hb
    omega
  rw [extractNgrams_eq_none_iff.mpr ⟨hb, hascii, by omega⟩] at hs
  cases hs

/-- A text containing a query of at least `n` characters holds every n-gram
of the query. -/
theorem mem_gramsOf_of_infix {n : Nat} {query text g : List Char} (hlen : n ≤ query.length)
    (hq : query <:+: text) (hg : g ∈ gramsOf n query) : g ∈ gramsOf n text := by
  have hlen' : n ≤ text.length := hlen.trans hq.length_le
  rw [gramsOf, extractNgrams_of_le_length hlen, Option.getD_some, mem_windows hlen] at hg
  rw [gramsOf, extractNgrams_of_le_length hlen', Option.getD_some, mem_windows hlen']
  exact ⟨hg.1, hg.2.trans hq⟩

/-- Below `2³²` rows, a bitmap of the index holds the rows whose text has its
n-gram. -/
theorem Consistent.mem_bitmap_iff (hc : idx.Consistent) (hn : idx.totalItems < 2 ^ 32)
    {g : List Char} {b : BitIndex} (hb : idx.ngrams.find? g = some b) (x : Nat) :
    x ∈ b.bitmap ↔ x < idx.totalItems ∧ g ∈ gramsOf idx.n (idx.itemTexts.getD x []) := by
  rw [hc.mem_bitmap g b hb x]
  constructor
  · rintro ⟨i, hi, rfl, hg⟩
    rw [asU32_of_lt (by omega)]
    exact ⟨hi, hg⟩
  · rintro ⟨hx, hg⟩
    exact ⟨x, hx, asU32_of_lt (by omega), hg⟩

/-- An n-gram with no entry is the n-gram of no row. -/
theorem Consistent.not_mem_gramsOf (hc : idx.Consistent) {g : List Char}
    (hg : idx.ngrams.find? g = none) {x : Nat} (hx : x < idx.totalItems) :
    g ∉ gramsOf idx.n (idx.itemTexts.getD x []) := fun hm => by
  simpa [hg] using hc.find?_isSome x hx g hm

theorem Consistent.keepContaining (hc : idx.Consistent) (query : List Char) {rows : List Nat}
    (hr : ∀ i ∈ rows, i < idx.totalItems) :
    idx.keepContaining query rows =
      some (rows.filter fun i => contains (idx.itemTexts.getD i []) query) := by
  have hall : rows.all (· < idx.itemTexts.length) = true := by
    simpa [hc.length_itemTexts] using hr
  rw [TextIndex.keepContaining, if_pos hall]

/-- `linear_search` is the scan of every row. -/
theorem Consistent.linearSearch (hc : idx.Consistent) (query : List Char) :
    idx.linearSearch query = some (matchingRows idx.itemTexts query) := by
  rw [TextIndex.linearSearch, hc.keepContaining query (fun i hi => List.mem_range.mp hi),
    matchingRows, hc.length_itemTexts]

/-- The candidates are the rows holding every n-gram of the query: none when
an n-gram has no entry, and otherwise the intersection of the n-grams'
bitmaps. -/
theorem Consistent.mem_findCandidates (hc : idx.Consistent) (hn : idx.totalItems < 2 ^ 32)
    {gs : List (List Char)} (hgs : gs ≠ []) (x : Nat) :
    x ∈ idx.findCandidates gs ↔
      x < idx.totalItems ∧ ∀ g ∈ gs, g ∈ gramsOf idx.n (idx.itemTexts.getD x []) := by
  obtain ⟨first, rest, rfl⟩ := List.exists_cons_of_ne_nil hgs
  unfold findCandidates
  dsimp only
  split
  · rename_i hf
    simp only [List.not_mem_nil, false_iff, not_and, List.mem_cons, forall_eq_or_imp]
    exact fun hx h _ => hc.not_mem_gramsOf hf hx h
  rename_i firstBit hf
  have hfirst := hc.mem_bitmap_iff hn hf x
  split_ifs with hrest hlen
  · rw [List.isEmpty_iff.mp hrest]
    simp [toIndices, ← SortedSet.mem_def, hfirst]
  · simp only [List.length_cons, Nat.add_sub_cancel, ne_eq,
      List.filterMap_length_eq_length, Option.isSome_map, not_forall] at hlen
    obtain ⟨g, hg, hnone⟩ := hlen
    simp only [List.not_mem_nil, false_iff, not_and, List.mem_cons, forall_eq_or_imp]
    exact fun hx _ h => hc.not_mem_gramsOf (Option.not_isSome_iff_eq_none.mp hnone) hx (h g hg)
  · simp only [List.length_cons, Nat.add_sub_cancel, ne_eq, not_not,
      List.filterMap_length_eq_length, Option.isSome_map] at hlen
    rw [← List.map_filterMap, toIndices, ← SortedSet.mem_def, mem_multiOperation_and, hfirst]
    simp only [List.mem_filterMap, List.mem_cons, forall_eq_or_imp, forall_exists_index, and_imp]
    constructor
    · rintro ⟨⟨hx, h1⟩, hrest'⟩
      refine ⟨hx, h1, fun g hg => ?_⟩
      obtain ⟨b, hb⟩ := Option.isSome_iff_exists.mp (hlen g hg)
      exact ((hc.mem_bitmap_iff hn hb x).mp (hrest' b g hg hb)).2
    · rintro ⟨hx, h1, hrest'⟩
      exact ⟨⟨hx, h1⟩, fun b g hg hb => (hc.mem_bitmap_iff hn hb x).mpr ⟨hx, hrest' g hg⟩⟩

/-- The candidates are strictly increasing, so they are the rows holding
every n-gram of the query in order. -/
theorem Consistent.findCandidates (hc : idx.Consistent) (hn : idx.totalItems < 2 ^ 32)
    {gs : List (List Char)} (hgs : gs ≠ []) :
    idx.findCandidates gs = (List.range idx.totalItems).filter
      fun i => gs.all fun g => decide (g ∈ gramsOf idx.n (idx.itemTexts.getD i [])) := by
  have hsorted : (idx.findCandidates gs).Pairwise (· < ·) := by
    unfold TextIndex.findCandidates
    dsimp only
    split
    · exact .nil
    · split
      · exact .nil
      · split_ifs
        · exact SortedSet.sorted _
        · exact .nil
        · exact SortedSet.sorted _
  refine hsorted.eq_of_mem_iff (List.pairwise_lt_range.filter _) fun x => ?_
  rw [hc.mem_findCandidates hn hgs]
  simp

/-- A row containing a query whose n-grams are `gs` holds all of them, so
checking the rows that hold them keeps every matching row. -/
theorem Consistent.filter_contains_candidates (hc : idx.Consistent) {query : List Char}
    {gs : List (List Char)} (hlen : idx.n ≤ query.length)
    (hx : extractNgrams idx.n query = some gs) :
    ((List.range idx.totalItems).filter fun i =>
        gs.all fun g => decide (g ∈ gramsOf idx.n (idx.itemTexts.getD i []))).filter
      (fun i => contains (idx.itemTexts.getD i []) query) = matchingRows idx.itemTexts query := by
  rw [List.filter_filter, matchingRows, hc.length_itemTexts]
  refine List.filter_congr fun i _ => ?_
  cases hcont : contains (idx.itemTexts.getD i []) query with
  | false => simp
  | true =>
    have hall : ∀ g ∈ gs, g ∈ gramsOf idx.n (idx.itemTexts.getD i []) := fun g hg =>
      mem_gramsOf_of_infix hlen (contains_iff.mp hcont) (by rwa [gramsOf, hx, Option.getD_some])
    simpa using hall

/-- `search` on a consistent index of fewer than `2³²` rows: nothing for the
empty query, a panic when the n-grams of the lower-cased query cannot be
extracted, and otherwise the rows whose text contains the lower-cased query,
in increasing order, which is what `linear_search` over every row answers.
A query shorter than `n` bytes is scanned for, and extracts as itself. -/
theorem search_eq_matchingRows (hc : idx.Consistent) (hn : idx.totalItems < 2 ^ 32)
    (query : List Char) :
    idx.search lower query =
      if query = [] then some []
      else (extractNgrams idx.n (lower query)).map
        fun _ => matchingRows idx.itemTexts (lower query) := by
  unfold search
  by_cases hq : query = []
  · simp [hq]
  rw [if_neg (by simpa using hq), if_neg hq]
  dsimp only
  split_ifs with hshort
  · have hs : (extractNgrams idx.n (lower query)).isSome := by simp [extractNgrams, hshort]
    obtain ⟨gs, hgs⟩ := Option.isSome_iff_exists.mp hs
    rw [hc.linearSearch, hgs, Option.map_some]
  cases hx : extractNgrams idx.n (lower query) with
  | none => rfl
  | some gs =>
    have hlen : idx.n ≤ (lower query).length :=
      le_length_of_extractNgrams (not_lt.mp hshort) (by simp [hx])
    have hgs : gs ≠ [] := by
      rw [extractNgrams_of_le_length hlen, Option.some.injEq] at hx
      subst hx
      simp [windows]
    have hkeep := hc.filter_contains_candidates hlen hx
    dsimp only
    rw [if_neg (by simpa using hgs), hc.findCandidates hn hgs, Option.map_some]
    split_ifs with hempty
    · rw [← hkeep, List.isEmpty_iff.mp hempty, List.filter_nil]
    · rw [hc.keepContaining _ fun i hi => List.mem_range.mp (List.mem_filter.mp hi).1, hkeep]

end Search

/-! ### `search_complex_words` -/

section ComplexWords

/-- The rows a word of `search_complex_words` stands for: those whose text
contains it, and none for the empty word, which `search` answers with
nothing. -/
def wordRows (texts : List (List Char)) (word : List Char) : List Nat :=
  if word = [] then [] else matchingRows texts (lower word)

/-- The rows of `(or₁ OR or₂ ...) AND and₁ AND ... AND NOT not₁ AND NOT ...`
over the words' rows; with no `OR` word, every row passes the `OR` part. -/
def complexWordsRows (texts : List (List Char)) (orWords andWords notWords : List (List Char)) :
    List Nat :=
  (List.range texts.length).filter fun i =>
    (orWords.isEmpty || orWords.any fun w => i ∈ wordRows lower texts w) &&
      (andWords.all fun w => i ∈ wordRows lower texts w) &&
        notWords.all fun w => i ∉ wordRows lower texts w

variable {idx : TextIndex}

/-- The `OR` part, with its early return read as the empty bitmap. -/
theorem mem_orWordsPart (f : List Char → RoaringBitmap) (ws : List (List Char)) (x : Nat) :
    x ∈ (orWordsPart f ws).getD SortedSet.empty ↔ ∃ w ∈ ws, x ∈ f w := by
  unfold orWordsPart
  dsimp only
  split_ifs with he
  · simp only [Option.getD_none, SortedSet.not_mem_empty, false_iff]
    intro hw
    exact SortedSet.isEmpty_iff.mp he x ((SortedSet.mem_foldl_union f ws _ x).mpr (.inr hw))
  · simp [SortedSet.mem_foldl_union]

/-- The `AND` loop, with its early return read as the empty bitmap: the
intersection of all the words' bitmaps, since an empty intersection stays
empty. -/
theorem mem_andWordsLoop (f : List Char → RoaringBitmap) (ws : List (List Char))
    (r : RoaringBitmap) (x : Nat) :
    x ∈ (andWordsLoop f r ws).getD SortedSet.empty ↔ x ∈ r ∧ ∀ w ∈ ws, x ∈ f w := by
  induction ws generalizing r with
  | nil => simp [andWordsLoop]
  | cons w rest ih =>
    simp only [andWordsLoop, List.mem_cons, forall_eq_or_imp]
    split_ifs with he
    · simp only [Option.getD_none, SortedSet.not_mem_empty, false_iff]
      rintro ⟨hr, hw, -⟩
      exact SortedSet.isEmpty_iff.mp he x (SortedSet.mem_inter.mpr ⟨hr, hw⟩)
    · rw [ih, SortedSet.mem_inter, and_assoc]

theorem mem_bind_andWordsLoop (f : List Char → RoaringBitmap) (ws : List (List Char))
    (start : Option RoaringBitmap) (x : Nat) :
    x ∈ (start.bind (andWordsLoop f · ws)).getD SortedSet.empty ↔
      x ∈ start.getD SortedSet.empty ∧ ∀ w ∈ ws, x ∈ f w := by
  cases start with
  | none => simp
  | some r => exact mem_andWordsLoop f ws r x

theorem isSome_search (hc : idx.Consistent) (hn : idx.totalItems < 2 ^ 32) (w : List Char) :
    (idx.search lower w).isSome = (w.isEmpty || (extractNgrams idx.n (lower w)).isSome) := by
  rw [search_eq_matchingRows lower hc hn]
  by_cases hw : w = []
  · simp [hw]
  · simp [hw]

theorem search_eq_wordRows (hc : idx.Consistent) (hn : idx.totalItems < 2 ^ 32) {w : List Char}
    (hs : (idx.search lower w).isSome) : idx.search lower w = some (wordRows lower idx.itemTexts w) := by
  rw [search_eq_matchingRows lower hc hn] at hs ⊢
  unfold wordRows
  split_ifs with hw
  · rfl
  · rw [if_neg hw, Option.isSome_map] at hs
    obtain ⟨gs, hgs⟩ := Option.isSome_iff_exists.mp hs
    rw [hgs, Option.map_some]

theorem lt_of_mem_wordRows {texts : List (List Char)} {w : List Char} {i : Nat}
    (h : i ∈ wordRows lower texts w) : i < texts.length := by
  unfold wordRows matchingRows at h
  split_ifs at h
  · cases h
  · exact List.mem_range.mp (List.mem_filter.mp h).1

/-- `search_complex_words` on a consistent index of fewer than `2³²` rows: a
panic when one word's n-grams cannot be extracted, and otherwise the rows
whose text contains one of the `OR` words (any row when there is none), every
`AND` word and no `NOT` word, in increasing order. The early returns of the
`OR` and `AND` steps give the same empty answer. Each word's bitmap holds its
rows, all below `2³²`; the `OR` part passes the rows that contain an `OR`
word (every row when there is none) and the `AND` loop those of them that
contain every `AND` word. -/
theorem searchComplexWords_eq (hc : idx.Consistent) (hn : idx.totalItems < 2 ^ 32)
    (orWords andWords notWords : List (List Char)) :
    idx.searchComplexWords lower orWords andWords notWords =
      if (orWords ++ andWords ++ notWords).all
        fun w => w.isEmpty || (extractNgrams idx.n (lower w)).isSome
      then some (complexWordsRows lower idx.itemTexts orWords andWords notWords) else none := by
  unfold searchComplexWords
  simp only [isSome_search lower hc hn]
  by_cases hall : (orWords ++ andWords ++ notWords).all
    fun w => w.isEmpty || (extractNgrams idx.n (lower w)).isSome
  swap
  · rw [if_neg hall, if_neg hall]
  rw [if_pos hall, if_pos hall]
  set f := fun word => bitmapOfIndices ((idx.search lower word).getD []) with hf_def
  have hf : ∀ w ∈ orWords ++ andWords ++ notWords, ∀ x,
      x ∈ f w ↔ x ∈ wordRows lower idx.itemTexts w := by
    intro w hw x
    have hs : (idx.search lower w).isSome := by
      rw [isSome_search lower hc hn]
      exact List.all_eq_true.mp hall w hw
    simp only [hf_def]
    rw [search_eq_wordRows lower hc hn hs, Option.getD_some, mem_bitmapOfIndices]
    constructor
    · rintro ⟨i, hi, rfl⟩
      have := lt_of_mem_wordRows lower hi
      rwa [asU32_of_lt (by rw [hc.length_itemTexts] at this; omega)]
    · intro hx
      have := lt_of_mem_wordRows lower hx
      exact ⟨x, hx, asU32_of_lt (by rw [hc.length_itemTexts] at this; omega)⟩
  have hrows : ∀ w ∈ orWords ++ andWords ++ notWords, ∀ x,
      x ∈ f w ↔ x < idx.totalItems ∧ x ∈ wordRows lower idx.itemTexts w := by
    intro w hw x
    rw [hf w hw x, iff_and_self]
    intro hx
    simpa [hc.length_itemTexts] using lt_of_mem_wordRows lower hx
  have hstart : ∀ x, x ∈ (if !orWords.isEmpty then orWordsPart f orWords
        else some (fullBitmap idx.totalItems)).getD SortedSet.empty ↔
      x < idx.totalItems ∧ (orWords = [] ∨ ∃ w ∈ orWords, x ∈ wordRows lower idx.itemTexts w) := by
    intro x
    split_ifs with hor
    · have hne : orWords ≠ [] := by simpa using hor
      rw [mem_orWordsPart]
      simp only [hne, false_or]
      constructor
      · rintro ⟨w, hw, hx⟩
        obtain ⟨hlt, hx⟩ := (hrows w (by simp [hw]) x).mp hx
        exact ⟨hlt, w, hw, hx⟩
      · rintro ⟨-, w, hw, hx⟩
        exact ⟨w, hw, (hf w (by simp [hw]) x).mpr hx⟩
    · have he : orWords = [] := by simpa using hor
      simp [he, mem_fullBitmap, asU32_of_lt hn]
  have hmem : ∀ x, x ∈ ((if !orWords.isEmpty then orWordsPart f orWords
        else some (fullBitmap idx.totalItems)).bind (andWordsLoop f · andWords)).getD
          SortedSet.empty ↔
      x < idx.totalItems ∧ (orWords = [] ∨ ∃ w ∈ orWords, x ∈ wordRows lower idx.itemTexts w) ∧
        ∀ w ∈ andWords, x ∈ wordRows lower idx.itemTexts w := by
    intro x
    rw [mem_bind_andWordsLoop, hstart, and_assoc]
    refine and_congr_right fun hlt => and_congr_right fun _ => forall₂_congr fun w hw => ?_
    rw [hf w (by simp [hw]) x]
  have hpass : ∀ x, x ∈ complexWordsRows lower idx.itemTexts orWords andWords notWords ↔
      (x < idx.totalItems ∧ (orWords = [] ∨ ∃ w ∈ orWords, x ∈ wordRows lower idx.itemTexts w) ∧
        ∀ w ∈ andWords, x ∈ wordRows lower idx.itemTexts w) ∧
        ∀ w ∈ notWords, x ∉ wordRows lower idx.itemTexts w := by
    intro x
    simp [complexWordsRows, hc.length_itemTexts, and_assoc]
  split
  · rename_i hnone
    rw [Option.some.injEq, eq_comm, List.eq_nil_iff_forall_not_mem]
    intro x hx
    have := (hmem x).mpr ((hpass x).mp hx).1
    rw [hnone] at this
    exact SortedSet.not_mem_empty x this
  · rename_i result hsome
    rw [Option.some.injEq]
    refine (SortedSet.sorted _).eq_of_mem_iff
      ((List.pairwise_lt_range.filter _)) fun x => ?_
    rw [← SortedSet.mem_def, SortedSet.mem_foldl_diff, hpass, ← hmem, hsome,
      Option.getD_some]
    refine and_congr_right fun hx => forall₂_congr fun w hw => ?_
    rw [hf w (by simp [hw]) x]

end ComplexWords

/-! ### An index built over rows -/

section Built

/-- What `build` leaves when it starts from `new n`: a consistent index of
the lower-cased texts of the rows, one per row. -/
theorem build_new {α : Type} {n : Nat} {items : List α} {extractor : α → List Char}
    {idx : TextIndex} (hb : (new n).build lower items extractor = some idx) :
    idx.Consistent ∧ idx.n = n ∧ idx.itemTexts = items.map (fun item => lower (extractor item)) ∧
      idx.totalItems = items.length := by
  refine ⟨(consistent_new n).build lower hb, ?_⟩
  unfold TextIndex.build at hb
  dsimp only at hb
  split_ifs at hb with he
  · obtain rfl := Option.some.inj hb
    simp [List.isEmpty_iff.mp he, new]
  · obtain rfl := Option.some.inj hb
    exact ⟨rfl, rfl, rfl⟩

/-- An index built over fewer than `2³²` rows answers every query as a scan
of the rows' lower-cased texts does: nothing for the empty query, a panic
exactly when the n-grams of the lower-cased query cannot be extracted, and
otherwise the rows whose text contains the lower-cased query, in increasing
order. -/
theorem build_search {α : Type} (n : Nat) {items : List α} (extractor : α → List Char)
    (hn : items.length < 2 ^ 32) (query : List Char) :
    ((new n).build lower items extractor).map (·.search lower query) =
      ((new n).build lower items extractor).map fun _ =>
        if query = [] then some []
        else (extractNgrams n (lower query)).map
          fun _ => matchingRows (items.map fun item => lower (extractor item)) (lower query) := by
  cases hb : (new n).build lower items extractor with
  | none => rfl
  | some idx =>
    obtain ⟨hc, rfl, htexts, htotal⟩ := build_new lower hb
    rw [Option.map_some, Option.map_some, search_eq_matchingRows lower hc (htotal ▸ hn), htexts]

theorem build_search_two_rows :
    [['a', 'b', 'c', 'd'], ['b', 'c', 'd']].length < 2 ^ 32 ∧
      ((new 3).build id [['a', 'b', 'c', 'd'], ['b', 'c', 'd']] id).map
        (·.search id ['b', 'c', 'd']) = some (some [0, 1]) :=
  ⟨by decide, (build_search id 3 id (by decide) ['b', 'c', 'd']).trans (by decide)⟩

/-- Building an index over the text `éé` panics, and so does searching an
index of `abc` for it. -/
theorem build_and_search_panic_on_two_accents :
    newTriGram.build (List.map Char.toLower) [['é', 'é']] id = none ∧
      (newTriGram.build (List.map Char.toLower) [['a', 'b', 'c']] id).map
        (fun index => index.search (List.map Char.toLower) ['é', 'é']) = some none := by
  decide

/-- `search_complex_words` on an index built over fewer than `2³²` rows: a
panic exactly when the n-grams of one lower-cased word cannot be extracted,
and otherwise the rows whose lower-cased text contains one of the `OR` words
(any row when there is none), every `AND` word and no `NOT` word, in
increasing order; an empty word stands for no row. -/
theorem build_searchComplexWords {α : Type} (n : Nat) {items : List α}
    (extractor : α → List Char) (hn : items.length < 2 ^ 32)
    (orWords andWords notWords : List (List Char)) :
    ((new n).build lower items extractor).map
        (·.searchComplexWords lower orWords andWords notWords) =
      ((new n).build lower items extractor).map fun _ =>
        if (orWords ++ andWords ++ notWords).all
          fun w => w.isEmpty || (extractNgrams n (lower w)).isSome
        then some (complexWordsRows lower (items.map fun item => lower (extractor item))
          orWords andWords notWords)
        else none := by
  cases hb : (new n).build lower items extractor with
  | none => rfl
  | some idx =>
    obtain ⟨hc, rfl, htexts, htotal⟩ := build_new lower hb
    rw [Option.map_some, Option.map_some, searchComplexWords_eq lower hc (htotal ▸ hn), htexts]

theorem build_searchComplexWords_two_rows :
    [['a', 'b', 'c', 'd'], ['b', 'c', 'd']].length < 2 ^ 32 ∧
      ((new 3).build id [['a', 'b', 'c', 'd'], ['b', 'c', 'd']] id).map
        (·.searchComplexWords id [['b', 'c', 'd']] [] [['a']]) = some (some [1]) :=
  ⟨by decide, (build_searchComplexWords id 3 id (by decide) _ _ _).trans (by decide)⟩

/-- `search_complex_words` with the word `éé` panics on an index of `abc`. -/
theorem searchComplexWords_panics_on_accented_word :
    (newTriGram.build (List.map Char.toLower) [['a', 'b', 'c']] id).map
      (fun index => index.searchComplexWords (List.map Char.toLower) [['é', 'é']] [] []) =
        some none := by
  decide

end Built

end TextIndex

end TreeMan
