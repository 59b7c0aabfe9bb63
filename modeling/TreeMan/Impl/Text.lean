import Mathlib
import TreeMan.Framework.SortedMap
import TreeMan.Impl.Bit

/-!
# The n-gram text index (`index/text.rs`)

A `TextIndex` maps each n-gram of the lower-cased texts of the rows to the
bitmap of the rows whose text holds it (`build`). `search` answers a query
with the rows whose lower-cased text contains the lower-cased query: a query
shorter than `n` bytes is scanned for, a longer one first narrows the rows to
those holding every n-gram of the query. `search_complex_words` combines the
answers of several words.

Texts are lists of characters. `str::to_lowercase` is the parameter `lower`:
Unicode case mapping is not modelled, and nothing here depends on what it
does. The byte lengths the source compares (`text.len()`) are
`String.utf8Len`. A panic of the source (a slice or an index past the end)
is `none`.

The statistics (`unique_ngrams`, `total_ngrams`, `stats`, `top_ngrams`) and
the n-gram queries that `FilterData` does not call (`complex_search`,
`get_ngram_bitindex`) are not modelled.
-/

namespace TreeMan

/-- `str::is_ascii`. -/
def isAscii (text : List Char) : Bool := text.all fun c => c.val ≤ 127

/-- `str::contains` (and `memmem::Finder::find(..).is_some()`, which compares
the UTF-8 bytes and so agrees with it): the query occurs in the text. -/
def contains (text query : List Char) : Bool := decide (query <:+: text)

/-- The `n` characters from each position `0..=len - n` (`chars[i..i + n]`). -/
def windows (n : Nat) (chars : List Char) : List (List Char) :=
  (List.range (chars.length - n + 1)).map fun i => (chars.drop i).take n

/-- `extract_ngrams_to_buffer`: the n-grams of a text. A non-empty text
shorter than `n` bytes is its own n-gram. An ASCII text has its byte windows,
which are its character windows; any other text has its character windows,
and one of at least `n` bytes but fewer than `n` characters makes the slice
`chars[0..n]` panic. -/
def extractNgrams (n : Nat) (text : List Char) : Option (List (List Char)) :=
  if String.utf8Len text < n then some (if text.isEmpty then [] else [text])
  else if isAscii text then some (windows n text)
  else if text.length < n then none
  else some (windows n text)

/-- Every character takes at least one byte. -/
theorem length_le_utf8Len (text : List Char) : text.length ≤ String.utf8Len text := by
  induction text with
  | nil => rfl
  | cons c cs ih =>
    have := Char.utf8Size_pos c
    simp only [List.length_cons, String.utf8Len_cons]
    omega

/-- An ASCII text has one byte per character. -/
theorem utf8Len_of_isAscii {text : List Char} (h : isAscii text = true) :
    String.utf8Len text = text.length := by
  induction text with
  | nil => rfl
  | cons c cs ih =>
    simp only [isAscii, List.all_cons, Bool.and_eq_true, decide_eq_true_eq] at h
    rw [String.utf8Len_cons, ih h.2, Char.utf8Size_eq_one_iff.mpr h.1, List.length_cons]

/-- The windows of a text at least `n` long are its infixes of length `n`. -/
theorem mem_windows {n : Nat} {chars g : List Char} (h : n ≤ chars.length) :
    g ∈ windows n chars ↔ g.length = n ∧ g <:+: chars := by
  simp only [windows, List.mem_map, List.mem_range]
  constructor
  · rintro ⟨i, hi, rfl⟩
    refine ⟨by simp; omega, ?_⟩
    exact (List.take_prefix n _).isInfix.trans (List.drop_suffix i chars).isInfix
  · rintro ⟨hg, s, t, rfl⟩
    refine ⟨s.length, by simp at h ⊢; omega, ?_⟩
    simp [hg]

/-- Extraction panics exactly on a non-ASCII text of at least `n` bytes and
fewer than `n` characters. -/
theorem extractNgrams_eq_none_iff {n : Nat} {text : List Char} :
    extractNgrams n text = none ↔
      n ≤ String.utf8Len text ∧ isAscii text = false ∧ text.length < n := by
  unfold extractNgrams
  split_ifs with h₁ h₂ h₃ <;> simp_all

/-- A text of at least `n` characters has its windows, in both branches. -/
theorem extractNgrams_of_le_length {n : Nat} {text : List Char} (h : n ≤ text.length) :
    extractNgrams n text = some (windows n text) := by
  have hb := length_le_utf8Len text
  unfold extractNgrams
  rw [if_neg (by omega)]
  split_ifs <;> first | rfl | omega

/-- `TextIndex`: the bitmap of the rows of each n-gram, the lower-cased text
of each row, the gram length `n` and the number of rows. -/
structure TextIndex where
  ngrams : SortedMap (List Char) BitIndex
  itemTexts : List (List Char)
  n : Nat
  totalItems : Nat

namespace TextIndex

/-- `TextIndex::new`. -/
def new (n : Nat) : TextIndex := ⟨SortedMap.empty, [], n, 0⟩

/-- `TextIndex::new_tri_gram`. -/
def newTriGram : TextIndex := new 3

/-- `extract_ngrams_to_buffer` compares the byte length of a text with `n`
but slices its characters: two accented letters, four bytes and two
characters, make `chars[0..3]` panic. -/
theorem extractNgrams_panics_on_two_accents :
    extractNgrams newTriGram.n ['é', 'é'] = none := by
  decide

variable (lower : List Char → List Char)

/-- The `(n-gram, row)` pairs of the rows' texts, row by row. -/
def rowNgrams (n : Nat) (texts : List (List Char)) : List (List Char × Nat) :=
  texts.zipIdx.flatMap fun p => ((extractNgrams n p.1).getD []).map (·, p.2)

/-- `TextIndex::build`. It panics when the n-grams of a text do. The rows
are cut into chunks whose maps are appended in chunk order, so the list of an
n-gram is the rows holding it in increasing order, as one fold over the rows
gives it; `sort_unstable` and `dedup` then leave each row once. -/
def build {α : Type} (self : TextIndex) (items : List α) (extractor : α → List Char) :
    Option TextIndex :=
  if items.isEmpty then some self
  else
    let texts := items.map fun item => lower (extractor item)
    if texts.all fun text => (extractNgrams self.n text).isSome then
      let ngramsMap := (rowNgrams self.n texts).foldl (fun m p => m.push p.1 p.2) SortedMap.empty
      some { self with
        totalItems := items.length
        ngrams := ngramsMap.mapValues fun indices =>
          BitIndex.fromIndices (indices.mergeSort).dedup items.length
        itemTexts := texts }
    else none

/-- Keeps the rows whose text contains the query, in order; `item_texts[idx]`
panics for a row past the end. -/
def keepContaining (self : TextIndex) (query : List Char) (rows : List Nat) :
    Option (List Nat) :=
  if rows.all (· < self.itemTexts.length) then
    some (rows.filter fun idx => contains (self.itemTexts.getD idx []) query)
  else none

/-- `linear_search`: every row whose text contains the query. -/
def linearSearch (self : TextIndex) (query : List Char) : Option (List Nat) :=
  self.keepContaining query (List.range self.totalItems)

/-- `find_candidates_with_bitindex`: the rows holding every n-gram of the
query, or none when an n-gram has no entry. -/
def findCandidates (self : TextIndex) (queryNgrams : List (List Char)) : List Nat :=
  match queryNgrams with
  | [] => []
  | first :: rest =>
    match self.ngrams.find? first with
    | none => []
    | some firstBit =>
      if rest.isEmpty then toIndices firstBit.bitmap
      else
        let operations := rest.filterMap fun g => (self.ngrams.find? g).map (·, Op.and)
        if operations.length ≠ queryNgrams.length - 1 then []
        else toIndices (firstBit.multiOperation operations)

/-- `TextIndex::search`. The three branches on `candidates.len()` keep the
candidates whose text contains the query, in order (the parallel one collects
in order), so they are one `keepContaining`. -/
def search (self : TextIndex) (query : List Char) : Option (List Nat) :=
  if query.isEmpty then some []
  else
    let queryLower := lower query
    if String.utf8Len queryLower < self.n then self.linearSearch queryLower
    else
      match extractNgrams self.n queryLower with
      | none => none
      | some queryNgrams =>
        if queryNgrams.isEmpty then some []
        else
          let candidates := self.findCandidates queryNgrams
          if candidates.isEmpty then some []
          else self.keepContaining queryLower candidates

/-- The `OR` part of `search_complex_words`: the union of the words' bitmaps;
`none` is the early `return Vec::new()` when it is empty. -/
def orWordsPart (bitmapOf : List Char → RoaringBitmap) (orWords : List (List Char)) :
    Option RoaringBitmap :=
  let combined := orWords.foldl (fun acc word => acc.union (bitmapOf word)) SortedSet.empty
  if combined.isEmpty then none else some combined

/-- The `AND` loop of `search_complex_words`; `none` is its early
`return Vec::new()` once the result is empty. -/
def andWordsLoop (bitmapOf : List Char → RoaringBitmap) :
    RoaringBitmap → List (List Char) → Option RoaringBitmap
  | result, [] => some result
  | result, word :: rest =>
    let result := result.inter (bitmapOf word)
    if result.isEmpty then none else andWordsLoop bitmapOf result rest

/-- `search_complex_words`. Every word is searched first (a panic of one is a
panic of the call); the map from words to bitmaps answers every word, so its
`if let Some` branches always hold. -/
def searchComplexWords (self : TextIndex) (orWords andWords notWords : List (List Char)) :
    Option (List Nat) :=
  if (orWords ++ andWords ++ notWords).all fun word => (self.search lower word).isSome then
    let bitmapOf := fun word => bitmapOfIndices ((self.search lower word).getD [])
    let start := if !orWords.isEmpty then orWordsPart bitmapOf orWords
      else some (fullBitmap self.totalItems)
    match start.bind (andWordsLoop bitmapOf · andWords) with
    | none => some []
    | some result =>
      some (toIndices (notWords.foldl (fun acc word => acc.diff (bitmapOf word)) result))
  else none

end TextIndex

end TreeMan
