import Mathlib
import TreeMan.Proof.Grouping

/-!
# The drill-down history over whole runs

Every successful filtering call ends with one of three writes
(`apply_filtered_indices`, `apply_owned_data`, `apply_indexed_data`), each
after the check that fewer than `MAX_HISTORY` levels are stored, and before
it at most sets the mask (`FilteringCall.run_write`). Each write pushes one
level, of the new current positions, and names it (`LevelWrite.eq`).

From this, `historyWf_of_reachable`: on every state a run of calls reaches,
the history is in step (`HistoryWf`): one name per stored level, the
current level the last one, its positions the current ones, and at most
`MAX_HISTORY + 1` levels. And `up_after_filtering`: on a view over at least
one row, `up` right after a successful filtering call lands where
`go_to_level(current_level)` from the state before it lands.
-/

namespace TreeMan

/-- The storage with a level of positions pushed and made current, as the
three writes write it. -/
def DataStorage.pushLevel {T : Type} : DataStorage T → List Nat → DataStorage T
  | .owned o, indices => .owned (o.pushLevel indices)
  | .indexed x, indices =>
    .indexed { x with currentIndices := indices, indexLevels := x.indexLevels ++ [indices] }

namespace OwnedStorage

variable {T : Type} (o : OwnedStorage T) (indices : List Nat)

@[simp] theorem pushLevel_currentIndices : (o.pushLevel indices).currentIndices = indices := by
  unfold pushLevel
  split_ifs <;> rfl

@[simp] theorem pushLevel_levelIndices :
    (o.pushLevel indices).levelIndices = o.levelIndices ++ [indices] := by
  unfold pushLevel
  split_ifs <;> rfl

@[simp] theorem length_pushLevel_levels : (o.pushLevel indices).levels.length = o.levels.length + 1 := by
  unfold pushLevel
  split_ifs <;> simp

end OwnedStorage

namespace FilterData

variable {N : Numerics} {T : Type} {s s₁ s' : FilterData N T}

/-! ### What a successful filtering call ends with -/

/-- The three writes that end a successful filtering call, each after the
check that the history has room for one more level. -/
inductive LevelWrite (s s' : FilterData N T) : Prop
  | filteredIndices (indices : List Nat) (info : String)
      (h : s.applyFilteredIndices indices info = .ok s')
  | ownedData (o : OwnedStorage T) (b : RoaringBitmap) (info : String)
      (hst : s.storage = .owned o) (hmax : o.levels.length ≤ maxHistory)
      (h : s.applyOwnedData b info = .ok s')
  | indexedData (x : IndexedStorage T) (indices : List Nat) (info : String)
      (hst : s.storage = .indexed x) (hmax : x.indexLevels.length ≤ maxHistory)
      (h : s.applyIndexedData indices info = .ok s')

/-- A successful filtering call: at most the mask set, then one of the
writes. -/
def EndsWithWrite (s s' : FilterData N T) : Prop := ∃ s₁, MaskedOrSame s s₁ ∧ LevelWrite s₁ s'

theorem LevelWrite.ends (h : LevelWrite s s') : EndsWithWrite s s' := ⟨s, .inl rfl, h⟩

theorem applyFilteredItemsWithBitmap_write {b : RoaringBitmap} {info : String}
    (h : s.applyFilteredItemsWithBitmap b info = .ok s') : LevelWrite s s' := by
  unfold applyFilteredItemsWithBitmap at h
  split at h
  · rename_i o hst
    split_ifs at h with hmax
    exact .ownedData o b info hst (Nat.le_of_not_lt hmax) h
  · rename_i x hst
    split_ifs at h with hmax
    exact .indexedData x _ info hst (Nat.le_of_not_lt hmax) h

theorem applyFilteredItems_write {predicate : T → Bool} {info : String}
    (h : s.applyFilteredItems predicate info = .ok s') : LevelWrite s s' := by
  unfold applyFilteredItems at h
  dsimp only at h
  split at h
  · split_ifs at h
    exact .filteredIndices _ info h
  · split at h
    · cases h
    · split_ifs at h
      exact .filteredIndices _ info h

theorem applyFieldBitmap_write {b : RoaringBitmap} {description : String}
    (h : s.applyFieldBitmap b description = .ok s') : EndsWithWrite s s' := by
  unfold applyFieldBitmap at h
  split_ifs at h
  · have hm := maskedBitmap_snd (s := s) b
    rcases hsplit : s.maskedBitmap b with ⟨finalBitmap, s₁⟩
    rw [hsplit] at hm h
    dsimp only at h
    split_ifs at h
    exact ⟨s₁, hm, applyFilteredItemsWithBitmap_write h⟩

theorem doFilterByFieldsOps_write {opText : FieldOperation N → String}
    {fields : List (String × IndexFieldEnum N × List (FieldOperation N × Op))}
    (h : s.doFilterByFieldsOps opText fields = .ok s') : EndsWithWrite s s' := by
  unfold doFilterByFieldsOps at h
  split_ifs at h
  · split at h
    · cases h
    · cases h
    · exact applyFieldBitmap_write h

theorem filterByFieldOps_write {opText : FieldOperation N → String} {name : String}
    {operations : List (FieldOperation N × Op)} {efficient : Bool}
    (h : s.filterByFieldOps opText name operations efficient = .ok s') : EndsWithWrite s s' := by
  unfold filterByFieldOps at h
  split at h
  · cases h
  · split at h
    · cases h
    · split at h
      · exact doFilterByFieldsOps_write h
      · exact (applyFilteredItems_write h).ends

theorem filterByFieldsOps_write {opText : FieldOperation N → String}
    {fields : List (String × List (FieldOperation N × Op))} {efficient : Bool}
    (h : s.filterByFieldsOps opText fields efficient = .ok s') : EndsWithWrite s s' := by
  unfold filterByFieldsOps at h
  split at h
  · cases h
  · split at h
    · cases h
    · split at h
      · cases h
      · split at h
        · exact doFilterByFieldsOps_write h
        · exact (applyFilteredItems_write h).ends

theorem applyTextIndices_write {name desc : String} {textIndices : List Nat}
    (h : s.applyTextIndices name textIndices desc = .ok s') : LevelWrite s s' := by
  unfold applyTextIndices at h
  dsimp only at h
  split_ifs at h
  exact .filteredIndices _ desc h

theorem searchWithText_write {lower : List Char → List Char} {name : String}
    {query : List Char} (h : s.searchWithText lower name query = .ok s') : LevelWrite s s' := by
  unfold searchWithText at h
  split at h
  · cases h
  · cases h
  · exact applyTextIndices_write h

theorem searchComplexWordsText_write {lower : List Char → List Char} {name : String}
    {orWords andWords notWords : List (List Char)}
    (h : s.searchComplexWordsText lower name orWords andWords notWords = .ok s') :
    LevelWrite s s' := by
  unfold searchComplexWordsText at h
  split at h
  · cases h
  · cases h
  · exact applyTextIndices_write h

/-! ### The history of a view -/

/-- The positions of every stored level, the first level's first. -/
def levelPositions (s : FilterData N T) : List (List Nat) :=
  match s.storage with
  | .owned o => o.levelIndices
  | .indexed x => x.indexLevels

/-- The number of stored levels that the filtering calls check against
`MAX_HISTORY`: of rows for `Owned` storage, of positions for `Indexed`. -/
def levelCount (s : FilterData N T) : Nat :=
  match s.storage with
  | .owned o => o.levels.length
  | .indexed x => x.indexLevels.length

/-- The history of a view is in step: one name per stored level, the
current level the last one, its positions the current ones, and at most
`MAX_HISTORY + 1` levels. -/
structure HistoryWf (s : FilterData N T) : Prop where
  length_levelInfo : s.levelInfo.length = s.levelPositions.length
  levelCount_eq : s.levelCount = s.levelPositions.length
  currentLevel_succ : s.currentLevel + 1 = s.levelInfo.length
  getLast?_levelPositions : s.levelPositions.getLast? = some s.currentIndices
  length_le : s.levelInfo.length ≤ maxHistory + 1

/-- `s'` has the history of `s`: what the calls that only touch the
indexes, the cache, the mask or the parent leave. -/
structure SameHistory (s s' : FilterData N T) : Prop where
  levelInfo : s'.levelInfo = s.levelInfo
  currentLevel : s'.currentLevel = s.currentLevel
  levelPositions : s'.levelPositions = s.levelPositions
  levelCount : s'.levelCount = s.levelCount
  currentIndices : s'.currentIndices = s.currentIndices

theorem HistoryWf.of_same (hw : s.HistoryWf) (h : SameHistory s s') : s'.HistoryWf where
  length_levelInfo := by rw [h.levelInfo, h.levelPositions, hw.length_levelInfo]
  levelCount_eq := by rw [h.levelCount, h.levelPositions, hw.levelCount_eq]
  currentLevel_succ := by rw [h.currentLevel, h.levelInfo, hw.currentLevel_succ]
  getLast?_levelPositions := by rw [h.levelPositions, h.currentIndices, hw.getLast?_levelPositions]
  length_le := h.levelInfo ▸ hw.length_le

/-- A view whose storage, names and level are those of `s`. -/
theorem sameHistory_of_storage (hst : s'.storage = s.storage) (hi : s'.levelInfo = s.levelInfo)
    (hc : s'.currentLevel = s.currentLevel) : SameHistory s s' where
  levelInfo := hi
  currentLevel := hc
  levelPositions := by unfold levelPositions; rw [hst]
  levelCount := by unfold levelCount; rw [hst]
  currentIndices := by unfold currentIndices; rw [hst]

theorem MaskedOrSame.sameHistory (h : MaskedOrSame s s') : SameHistory s s' :=
  sameHistory_of_storage h.storage (by rcases h with rfl | rfl <;> rfl)
    (by rcases h with rfl | rfl <;> rfl)

/-- `items()` writes at most the cache. -/
theorem sameHistory_items (s : FilterData N T) : SameHistory s s.items.2 := by
  unfold items
  split
  · rename_i o hst
    split
    · exact sameHistory_of_storage rfl rfl rfl
    · dsimp only
      split_ifs
      · exact ⟨rfl, rfl, by simp [levelPositions, hst], by simp [levelCount, hst],
          by simp [currentIndices, hst]⟩
      · exact sameHistory_of_storage rfl rfl rfl
  · split <;> exact sameHistory_of_storage rfl rfl rfl

theorem sameHistory_refreshMask (s : FilterData N T) : SameHistory s s.refreshMask := by
  unfold refreshMask
  dsimp only
  split_ifs <;> exact sameHistory_of_storage rfl rfl rfl

/-- What a write leaves: one level pushed, named and made current, with the
mask it sets; only when fewer than `MAX_HISTORY + 1` levels are stored.
`apply_indexed_data` numbers the level by the count of stored levels, which
the history in step makes the current level's successor. -/
theorem LevelWrite.eq (hw : s.HistoryWf) (h : LevelWrite s s') :
    s.levelCount ≤ maxHistory ∧ ∃ indices info mask,
      s' = { s with storage := s.storage.pushLevel indices, levelInfo := s.levelInfo ++ [info],
                    currentLevel := s.currentLevel + 1, sourceIndicesMask := mask } := by
  cases h with
  | filteredIndices indices info h =>
    unfold applyFilteredIndices at h
    split_ifs at h
    split at h
    · rename_i o hst
      split_ifs at h with hmax
      cases h
      refine ⟨by simp [levelCount, hst]; omega, indices, info, none, ?_⟩
      simp [updateLevelMetadata, DataStorage.pushLevel, hst]
    · rename_i x hst
      split at h
      · cases h
      · split_ifs at h with hmax
        cases h
        refine ⟨by simp [levelCount, hst]; omega, indices, info, s.sourceIndicesMask, ?_⟩
        simp [updateLevelMetadata, DataStorage.pushLevel, hst]
  | ownedData o b info hst hmax h =>
    rw [applyOwnedData, hst] at h
    cases h
    refine ⟨by simp [levelCount, hst, hmax], toIndices b, info, some b, ?_⟩
    simp [updateLevelMetadata, DataStorage.pushLevel, hst]
  | indexedData x indices info hst hmax h =>
    rw [applyIndexedData, hst] at h
    dsimp only at h
    split at h
    · cases h
    · split_ifs at h
      cases h
      have hlevel : x.indexLevels.length = s.currentLevel + 1 := by
        have := hw.levelCount_eq
        have := hw.length_levelInfo
        have := hw.currentLevel_succ
        simp only [levelCount, levelPositions, hst] at *
        omega
      refine ⟨by simp [levelCount, hst, hmax], indices, info, s.sourceIndicesMask, ?_⟩
      simp [DataStorage.pushLevel, hst, hlevel]

theorem levelPositions_of_pushLevel {indices : List Nat} (h : s'.storage = s.storage.pushLevel indices) :
    s'.levelPositions = s.levelPositions ++ [indices] := by
  unfold levelPositions
  rw [h]
  cases s.storage <;> simp [DataStorage.pushLevel]

theorem levelCount_of_pushLevel {indices : List Nat} (h : s'.storage = s.storage.pushLevel indices) :
    s'.levelCount = s.levelCount + 1 := by
  unfold levelCount
  rw [h]
  cases s.storage <;> simp [DataStorage.pushLevel]

theorem currentIndices_of_pushLevel {indices : List Nat}
    (h : s'.storage = s.storage.pushLevel indices) : s'.currentIndices = indices := by
  unfold currentIndices
  rw [h]
  cases s.storage <;> simp [DataStorage.pushLevel]

/-- A write keeps the history in step. -/
theorem LevelWrite.historyWf (hw : s.HistoryWf) (h : LevelWrite s s') : s'.HistoryWf := by
  obtain ⟨hmax, indices, info, mask, hs'⟩ := h.eq hw
  have hst : s'.storage = s.storage.pushLevel indices := by rw [hs']
  have hi : s'.levelInfo = s.levelInfo ++ [info] := by rw [hs']
  have hl : s'.currentLevel = s.currentLevel + 1 := by rw [hs']
  have h1 := hw.length_levelInfo
  have h2 := hw.levelCount_eq
  have h3 := hw.currentLevel_succ
  refine ⟨?_, ?_, ?_, ?_, ?_⟩
  · rw [hi, levelPositions_of_pushLevel hst, List.length_append, List.length_append, h1]
    rfl
  · rw [levelCount_of_pushLevel hst, levelPositions_of_pushLevel hst, List.length_append, h2]
    rfl
  · rw [hl, hi, List.length_append, ← h3]
    rfl
  · rw [levelPositions_of_pushLevel hst, currentIndices_of_pushLevel hst, List.getLast?_concat]
  · rw [hi, List.length_append, List.length_singleton]
    unfold maxHistory at hmax ⊢
    omega


theorem SameHistory.trans (h₁ : SameHistory s s₁) (h₂ : SameHistory s₁ s') : SameHistory s s' where
  levelInfo := h₂.levelInfo.trans h₁.levelInfo
  currentLevel := h₂.currentLevel.trans h₁.currentLevel
  levelPositions := h₂.levelPositions.trans h₁.levelPositions
  levelCount := h₂.levelCount.trans h₁.levelCount
  currentIndices := h₂.currentIndices.trans h₁.currentIndices

theorem sameHistory_replaceIndex {name expectedType : String}
    (h : s.replaceIndex name expectedType = .ok s') : SameHistory s s' := by
  unfold replaceIndex at h
  split_ifs at h
  · split at h
    · cases h
    · cases h
      exact sameHistory_of_storage rfl rfl rfl
  · cases h
    exact sameHistory_of_storage rfl rfl rfl

theorem sameHistory_createFieldIndex {name : String} {ty : FieldType}
    {extractor : T → ty.Carrier N}
    (h : s.createFieldIndex name ty extractor = .ok s' ∨
      ∃ e, s.createFieldIndex name ty extractor = .err e s') : SameHistory s s' := by
  unfold createFieldIndex at h
  split at h
  · rcases h with h | ⟨e, h⟩ <;> cases h
    exact sameHistory_of_storage rfl rfl rfl
  · rename_i s₁ hs₁
    rcases h with h | ⟨e, h⟩ <;> cases h
    exact ((sameHistory_replaceIndex hs₁).trans (sameHistory_items s₁)).trans
      (sameHistory_of_storage rfl rfl rfl)

theorem sameHistory_createTextIndex {lower : List Char → List Char} {name : String}
    {extractor : T → List Char}
    (h : s.createTextIndex lower name extractor = .ok s' ∨
      ∃ e, s.createTextIndex lower name extractor = .err e s') : SameHistory s s' := by
  unfold createTextIndex at h
  split at h
  · rcases h with h | ⟨e, h⟩ <;> cases h
    exact sameHistory_of_storage rfl rfl rfl
  · rename_i s₁ hs₁
    dsimp only at h
    split at h
    · rcases h with h | ⟨e, h⟩ <;> cases h
      exact ((sameHistory_replaceIndex hs₁).trans (sameHistory_items s₁)).trans
        (sameHistory_of_storage rfl rfl rfl)
    · rcases h with h | ⟨e, h⟩ <;> cases h

theorem sameHistory_releaseParent (s : FilterData N T) : SameHistory s s.releaseParent := by
  unfold releaseParent
  split
  · exact sameHistory_of_storage rfl rfl rfl
  · rename_i x hst
    exact ⟨rfl, rfl, by simp [levelPositions, hst], by simp [levelCount, hst],
      by simp [currentIndices, hst]⟩

/-! ### Moving between levels -/

theorem levelPositions_of_goToLevel {t : Nat} {trim : Bool}
    (h : s'.storage = s.storage.goToLevel t trim) :
    s'.levelPositions = if trim then s.levelPositions.take (t + 1) else s.levelPositions := by
  unfold levelPositions
  rw [h]
  cases s.storage <;> cases trim <;> simp [DataStorage.goToLevel]

theorem levelCount_of_goToLevel {t : Nat} {trim : Bool}
    (h : s'.storage = s.storage.goToLevel t trim) :
    s'.levelCount = if trim then min (t + 1) s.levelCount else s.levelCount := by
  unfold levelCount
  rw [h]
  cases s.storage <;> cases trim <;> simp [DataStorage.goToLevel]

theorem currentIndices_of_goToLevel {t : Nat} {trim : Bool}
    (h : s'.storage = s.storage.goToLevel t trim) :
    s'.currentIndices = (s.levelPositions[t]?).getD s.currentIndices := by
  unfold currentIndices levelPositions
  rw [h]
  cases s.storage <;> simp [DataStorage.goToLevel]

/-- Moving to an existing level `t` keeps the history in step: `t` becomes
the last level, with its positions current, whether the later levels are
dropped or `t` was the last already. -/
theorem HistoryWf.of_goToLevel (hw : s.HistoryWf) {t : Nat} (ht : t < s.levelInfo.length)
    (hst : s'.storage = s.storage.goToLevel t (decide (t < s.levelInfo.length - 1)))
    (hi : s'.levelInfo =
      if decide (t < s.levelInfo.length - 1) then s.levelInfo.take (t + 1) else s.levelInfo)
    (hc : s'.currentLevel = t) : s'.HistoryWf := by
  have h1 := hw.length_levelInfo
  have h2 := hw.levelCount_eq
  have h4 := hw.length_le
  have hlt : t < s.levelPositions.length := by omega
  have hp := levelPositions_of_goToLevel hst
  have hn := levelCount_of_goToLevel hst
  have hcur : s'.currentIndices = s.levelPositions[t] := by
    rw [currentIndices_of_goToLevel hst, List.getElem?_eq_getElem hlt, Option.getD_some]
  by_cases htrim : t < s.levelInfo.length - 1
  · simp only [decide_eq_true htrim, if_true] at hp hn hi
    refine ⟨?_, ?_, ?_, ?_, ?_⟩
    · rw [hi, hp, List.length_take, List.length_take]
      omega
    · rw [hn, hp, List.length_take]
      omega
    · rw [hc, hi, List.length_take]
      omega
    · rw [hp, hcur, List.getLast?_take, if_neg (by omega), Nat.add_sub_cancel,
        List.getElem?_eq_getElem hlt, Option.some_or]
    · rw [hi, List.length_take]
      omega
  · simp only [decide_eq_false htrim, Bool.false_eq_true, if_false] at hp hn hi
    have hlast : t = s.levelPositions.length - 1 := by omega
    refine ⟨by rw [hi, hp, h1], by rw [hn, hp, h2], by rw [hc, hi]; omega, ?_, hi ▸ h4⟩
    rw [hp, hcur, List.getLast?_eq_getElem?, ← hlast, List.getElem?_eq_getElem hlt]

theorem HistoryWf.goToLevel (hw : s.HistoryWf) (t : Nat) : (s.goToLevel t).HistoryWf := by
  unfold FilterData.goToLevel
  dsimp only
  by_cases ht : t ≥ s.levelInfo.length
  · rw [if_pos ht]
    exact hw
  · rw [if_neg ht]
    exact (hw.of_goToLevel (t := t) (by omega) rfl rfl rfl).of_same (sameHistory_refreshMask _)

theorem HistoryWf.up (hw : s.HistoryWf) : s.up.HistoryWf := by
  unfold FilterData.up
  split_ifs
  · exact hw.goToLevel _
  · exact hw

theorem HistoryWf.resetToSource (s : FilterData N T) : s.resetToSource.HistoryWf := by
  unfold FilterData.resetToSource
  cases s.storage <;> exact ⟨rfl, rfl, rfl, rfl, Nat.le_add_left 1 maxHistory⟩


/-! ### `up` after a filtering call -/

/-- On a view over at least one row, `go_to_level` recomputes the mask from
the current positions, so the mask before it does not matter. -/
theorem refreshMask_mask (u : FilterData N T) (m : Option RoaringBitmap)
    (hpos : 0 < (u.parentData.map List.length).getD 0) :
    ({ u with sourceIndicesMask := m } : FilterData N T).refreshMask = u.refreshMask := by
  have hparent : ({ u with sourceIndicesMask := m } : FilterData N T).parentData = u.parentData := rfl
  have hcur : ({ u with sourceIndicesMask := m } : FilterData N T).currentIndices =
    u.currentIndices := rfl
  unfold refreshMask
  rw [hparent, hcur, if_pos hpos, if_pos hpos]

/-- Moving to level `t` after a level is pushed on a history of `t + 1`
levels is moving to its last level before the push. -/
theorem goToLevel_pushLevel {t : Nat} (indices : List Nat) (hn : s.levelCount = t + 1)
    (hp : s.levelPositions.length = t + 1) :
    (s.storage.pushLevel indices).goToLevel t true = s.storage.goToLevel t false := by
  unfold levelCount at hn
  unfold levelPositions at hp
  cases hst : s.storage with
  | owned o =>
    rw [hst] at hn hp
    have hli : o.levelIndices.length = t + 1 := hp
    have hl : o.levels.length = t + 1 := hn
    simp only [DataStorage.pushLevel, OwnedStorage.pushLevel]
    split_ifs <;> simp [DataStorage.goToLevel, hli, hl]
  | indexed x =>
    rw [hst] at hp
    have hli : x.indexLevels.length = t + 1 := hp
    simp [DataStorage.pushLevel, DataStorage.goToLevel, hli]


/-- `up` right after a level is pushed on a view over at least one row
lands where `go_to_level(current_level)` before the push lands: `up` moves
to the level below the new one and drops the new one, and before the push
`go_to_level(current_level)` stays at the last level. -/
theorem up_pushLevel (hw : s.HistoryWf) (hpos : 0 < (s.parentData.map List.length).getD 0)
    (indices : List Nat) (info : String) (mask : Option RoaringBitmap) :
    ({ s with storage := s.storage.pushLevel indices, levelInfo := s.levelInfo ++ [info],
               currentLevel := s.currentLevel + 1, sourceIndicesMask := mask } :
        FilterData N T).up = s.goToLevel s.currentLevel := by
  have h1 := hw.length_levelInfo
  have h2 := hw.levelCount_eq
  have h3 := hw.currentLevel_succ
  have hup :
      ({ s with storage := s.storage.pushLevel indices, levelInfo := s.levelInfo ++ [info],
                currentLevel := s.currentLevel + 1, sourceIndicesMask := mask } : FilterData N T).up =
        ({ s with storage := (s.storage.pushLevel indices).goToLevel s.currentLevel true,
                  sourceIndicesMask := mask } : FilterData N T).refreshMask := by
    simp only [FilterData.up, FilterData.goToLevel, List.length_append, List.length_singleton,
      Nat.add_sub_cancel]
    rw [if_pos (by omega), if_neg (by omega), decide_eq_true (by omega : s.currentLevel <
      s.levelInfo.length), if_pos rfl, List.take_append_of_le_length (by omega),
      List.take_of_length_le (by omega)]
  have hgo : s.goToLevel s.currentLevel =
      ({ s with storage := s.storage.goToLevel s.currentLevel false } : FilterData N T).refreshMask := by
    simp only [FilterData.goToLevel]
    rw [if_neg (by omega), decide_eq_false (by omega : ¬ s.currentLevel < s.levelInfo.length - 1)]
    rfl
  have hpar : ({ s with storage := s.storage.goToLevel s.currentLevel false } :
      FilterData N T).parentData = s.parentData := by
    unfold parentData
    cases s.storage <;> rfl
  rw [hup, hgo, goToLevel_pushLevel indices (by omega) (by omega)]
  exact refreshMask_mask _ mask (hpar ▸ hpos)


end FilterData

open FilterData

/-- What every successful filtering call ends with. -/
theorem FilteringCall.run_write {N : Numerics} {T : Type} (lower : List Char → List Char)
    (opText : FieldOperation N → String) {s s' : FilterData N T} (c : FilteringCall N T)
    (h : c.run lower opText s = .ok s') : EndsWithWrite s s' := by
  cases c with
  | filter predicate => exact (applyFilteredItems_write h).ends
  | filterByFieldOps name operations efficient => exact filterByFieldOps_write h
  | filterByFieldsOps fields efficient => exact filterByFieldsOps_write h
  | searchWithText name query => exact (searchWithText_write h).ends
  | searchComplexWordsText name orWords andWords notWords =>
    exact (searchComplexWordsText_write h).ends


namespace FilterData

variable {N : Numerics} {T : Type} (lower : List Char → List Char)
  (opText : FieldOperation N → String) {s s' : FilterData N T}

/-- Every call keeps the history in step; a successful filtering call
pushes a level after at most setting the mask. -/
theorem HistoryWf.step (hw : s.HistoryWf) (hst : Step lower opText s s') : s'.HistoryWf := by
  obtain ⟨c, hc⟩ := hst
  cases c with
  | filtering call =>
    rcases hc with hc | ⟨e, hc⟩
    · obtain ⟨s₁, hm, hwrite⟩ := call.run_write lower opText hc
      exact hwrite.historyWf (hw.of_same hm.sameHistory)
    · exact hw.of_same (call.run_err lower opText hc).sameHistory
  | goToLevel targetLevel =>
    rw [Outcome.eq_of_ok hc]
    exact hw.goToLevel targetLevel
  | up =>
    rw [Outcome.eq_of_ok hc]
    exact hw.up
  | resetToSource =>
    rw [Outcome.eq_of_ok hc]
    exact HistoryWf.resetToSource s
  | createFieldIndex name ty extractor => exact hw.of_same (sameHistory_createFieldIndex hc)
  | createTextIndex name extractor => exact hw.of_same (sameHistory_createTextIndex hc)
  | dropIndex name =>
    rw [Outcome.eq_of_ok hc]
    exact hw.of_same (sameHistory_of_storage rfl rfl rfl)
  | clearFiledIndex =>
    rw [Outcome.eq_of_ok hc]
    exact hw.of_same (sameHistory_of_storage rfl rfl rfl)
  | clearTextIndexes =>
    rw [Outcome.eq_of_ok hc]
    exact hw.of_same (sameHistory_of_storage rfl rfl rfl)
  | clearAllIndexes =>
    rw [Outcome.eq_of_ok hc]
    exact hw.of_same (sameHistory_of_storage rfl rfl rfl)
  | items =>
    rw [Outcome.eq_of_ok hc]
    exact hw.of_same (sameHistory_items s)
  | releaseParent =>
    rw [Outcome.eq_of_ok hc]
    exact hw.of_same (sameHistory_releaseParent s)

theorem historyWf_initial (hs : Initial s) : s.HistoryWf := by
  rcases hs with ⟨items, rfl⟩ | ⟨parent, indices, rfl⟩
  · exact ⟨rfl, rfl, rfl, rfl, Nat.le_add_left 1 maxHistory⟩
  · exact ⟨rfl, rfl, rfl, rfl, Nat.le_add_left 1 maxHistory⟩

/-- On every state a run of calls reaches, the history is in step: one name
per stored level, the current level the last of them, its positions the
current positions, and at most `MAX_HISTORY + 1` levels. -/
theorem historyWf_of_reachable (hr : s.Reachable lower opText) : s.HistoryWf :=
  Transition.Reachable.invariant (fun u (hu : Initial u) => historyWf_initial hu)
    (fun u u' (hw : u.HistoryWf) (hst : Step lower opText u u') => hw.step lower opText hst) hr

/-- On every state a run of calls reaches, the stored history is in step:
one name per stored level (the level count `MAX_HISTORY` is checked against
included), the current level the last one, its positions the current
positions, and at most `MAX_HISTORY + 1` levels stored. -/
theorem levels_in_step (hr : s.Reachable lower opText) :
    s.levelInfo.length = s.levelPositions.length ∧ s.levelCount = s.levelPositions.length ∧
      s.currentLevel + 1 = s.levelInfo.length ∧
      s.levelPositions.getLast? = some s.currentIndices ∧ s.levelInfo.length ≤ maxHistory + 1 := by
  have hw := historyWf_of_reachable lower opText hr
  exact ⟨hw.length_levelInfo, hw.levelCount_eq, hw.currentLevel_succ, hw.getLast?_levelPositions,
    hw.length_le⟩

theorem levels_in_step_fromVec :
    (fromVec [1, 2] : FilterData Numerics.exactRat Nat).Reachable id (fun _ => "") ∧
      ((fromVec [1, 2] : FilterData Numerics.exactRat Nat).levelInfo.length =
          (fromVec [1, 2] : FilterData Numerics.exactRat Nat).levelPositions.length ∧
        (fromVec [1, 2] : FilterData Numerics.exactRat Nat).levelCount =
          (fromVec [1, 2] : FilterData Numerics.exactRat Nat).levelPositions.length ∧
        (fromVec [1, 2] : FilterData Numerics.exactRat Nat).currentLevel + 1 =
          (fromVec [1, 2] : FilterData Numerics.exactRat Nat).levelInfo.length ∧
        (fromVec [1, 2] : FilterData Numerics.exactRat Nat).levelPositions.getLast? =
          some (fromVec [1, 2] : FilterData Numerics.exactRat Nat).currentIndices ∧
        (fromVec [1, 2] : FilterData Numerics.exactRat Nat).levelInfo.length ≤ maxHistory + 1) :=
  ⟨.init (.inl ⟨_, rfl⟩), levels_in_step id (fun _ => "") (.init (.inl ⟨_, rfl⟩))⟩

end FilterData

open FilterData

/-- On a view over at least one row reached by a run of calls, `up` right
after a successful filtering call lands where `go_to_level(current_level)`
lands from the state before the call: the same levels, names, positions and
indexes, with the cache and the mask that moving to the level gives. The
mask the call may have set first is not read back. -/
theorem up_after_filtering {N : Numerics} {T : Type} (lower : List Char → List Char)
    (opText : FieldOperation N → String) {s s' : FilterData N T} (hr : s.Reachable lower opText)
    (hpos : 0 < (s.parentData.map List.length).getD 0) (c : FilteringCall N T)
    (h : c.run lower opText s = .ok s') : s'.up = s.goToLevel s.currentLevel := by
  have hw := historyWf_of_reachable lower opText hr
  obtain ⟨s₁, hm, hwrite⟩ := c.run_write lower opText h
  obtain ⟨-, indices, info, mask, rfl⟩ := hwrite.eq (hw.of_same hm.sameHistory)
  rcases hm with rfl | rfl
  · exact up_pushLevel hw hpos indices info mask
  · exact up_pushLevel hw hpos indices info mask

/-- Keeping row `1` of `[1, 2]`, then `up`. -/
theorem up_after_filtering_two_rows :
    (FilterData.fromVec [1, 2] : FilterData Numerics.exactRat Nat).Reachable id (fun _ => "") ∧
      0 < ((FilterData.fromVec [1, 2] : FilterData Numerics.exactRat Nat).parentData.map
        List.length).getD 0 ∧
      (FilteringCall.filter fun x => decide (x = 1)).run id (fun _ => "")
          (FilterData.fromVec [1, 2] : FilterData Numerics.exactRat Nat) =
        .ok (((FilterData.fromVec [1, 2] : FilterData Numerics.exactRat Nat).filter
          fun x => decide (x = 1)).ok?.getD (FilterData.fromVec [1, 2])) ∧
      (((FilterData.fromVec [1, 2] : FilterData Numerics.exactRat Nat).filter
          fun x => decide (x = 1)).ok?.getD (FilterData.fromVec [1, 2])).up =
        (FilterData.fromVec [1, 2] : FilterData Numerics.exactRat Nat).goToLevel 0 :=
  ⟨.init (.inl ⟨_, rfl⟩), by decide, rfl,
    up_after_filtering id (fun _ => "") (.init (.inl ⟨_, rfl⟩)) (by decide)
      (.filter fun x => decide (x = 1)) rfl⟩

end TreeMan
