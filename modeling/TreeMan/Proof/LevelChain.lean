import Mathlib
import TreeMan.Proof.Narrowing

/-!
# The drill-down of an `Owned` view only narrows

The stored levels of an `Owned` view narrow (`OwnedStorage.Narrows`): the
first holds every row of the source, and the positions of each later level
are a sublist of those of the level before it. A filtering call pushes a
sublist of the current positions, which are the last level's
(`Narrows.pushLevel`); `go_to_level` keeps a prefix of the levels
(`Narrows.goToLevel`); `reset_to_source` keeps the first level only.

So on every `Owned` view a run of calls reaches over fewer than `2^32` rows
the levels narrow (`owned_levels_narrow`). The proof rests on two invariants
proved before: the history is in step (`historyWf_of_reachable`) and the
view is well formed (`ownedViewWf_of_reachable`).
-/

namespace TreeMan

namespace OwnedStorage

variable {T : Type} {o o' : OwnedStorage T}

/-- The stored levels narrow: the first is every row of the source, and
each later level's positions are a sublist of the previous level's. -/
structure Narrows (o : OwnedStorage T) : Prop where
  head : o.levelIndices.head? = some (List.range o.source.length)
  chain : o.levelIndices.IsChain fun a b => b.Sublist a

theorem Narrows.of_eq (h : o.Narrows) (hl : o'.levelIndices = o.levelIndices)
    (hs : o'.source = o.source) : o'.Narrows where
  head := by rw [hl, hs]; exact h.head
  chain := by rw [hl]; exact h.chain

/-- Pushing a sublist of the current positions, which are the last
level's. -/
theorem Narrows.pushLevel (h : o.Narrows) {indices : List Nat}
    (hlast : o.levelIndices.getLast? = some o.currentIndices)
    (hsub : indices.Sublist o.currentIndices) : (o.pushLevel indices).Narrows := by
  refine ⟨?_, ?_⟩
  · rw [pushLevel_levelIndices, pushLevel_source, List.head?_append, h.head, Option.some_or]
  · rw [pushLevel_levelIndices]
    refine List.isChain_append.mpr ⟨h.chain, List.isChain_singleton _, fun x hx y hy => ?_⟩
    rw [hlast, Option.mem_some_iff] at hx
    rw [List.head?_singleton, Option.mem_some_iff] at hy
    subst hx hy
    exact hsub

/-- `go_to_level` keeps the levels or a prefix of them. -/
theorem Narrows.goToLevel (h : o.Narrows) {t : Nat} {trim : Bool}
    (hg : DataStorage.goToLevel t trim (.owned o) = .owned o') : o'.Narrows := by
  simp only [DataStorage.goToLevel, DataStorage.owned.injEq] at hg
  subst hg
  cases trim
  · exact ⟨h.head, h.chain⟩
  · refine ⟨?_, h.chain.take _⟩
    simpa [List.head?_take] using h.head

theorem narrows_resetToSource (hfull : o.fullIndices = List.range o.source.length) :
    ({ o with currentIndices := o.fullIndices, currentCache := some o.source,
               levels := [o.source], levelIndices := [o.fullIndices] } : OwnedStorage T).Narrows :=
  ⟨by simp [hfull], List.isChain_singleton _⟩

end OwnedStorage

namespace FilterData

variable {N : Numerics} {T : Type} {s s' : FilterData N T} {o : OwnedStorage T}

/-- The levels of every `Owned` view over fewer than `2^32` rows narrow. -/
def LevelsNarrow (s : FilterData N T) : Prop :=
  ∀ o, s.storage = .owned o → o.source.length < 2 ^ 32 → o.Narrows

theorem LevelsNarrow.of_storage (h : s.LevelsNarrow) (hst : s'.storage = s.storage) :
    s'.LevelsNarrow :=
  fun o ho hn => h o (hst ▸ ho) hn

theorem LevelsNarrow.items (h : s.LevelsNarrow) : s.items.2.LevelsNarrow := by
  cases hs : s.storage with
  | owned o =>
    rcases items_snd_of_owned hs with he | he
    · rwa [he]
    · rw [he]
      intro o' ho' hn
      simp only [DataStorage.owned.injEq] at ho'
      subst ho'
      exact (h o hs hn).of_eq rfl rfl
  | indexed x => rwa [IsIndexed.items_snd ⟨x, hs⟩]

theorem LevelsNarrow.of_createIndex (h : s.LevelsNarrow)
    (hc : s' = s ∨ ∃ s₁ : FilterData N T, s₁.storage = s.storage ∧ s'.storage = s₁.items.2.storage) :
    s'.LevelsNarrow := by
  rcases hc with rfl | ⟨s₁, hst₁, hst'⟩
  · exact h
  · exact (h.of_storage hst₁).items.of_storage hst'

theorem LevelsNarrow.goToLevel (h : s.LevelsNarrow) (t : Nat) : (s.goToLevel t).LevelsNarrow := by
  unfold FilterData.goToLevel
  dsimp only
  split
  · exact h
  · intro o' ho' hn
    rw [refreshMask_storage] at ho'
    cases hs : s.storage with
    | indexed x =>
      rw [hs] at ho'
      cases ho'
    | owned o =>
      rw [hs] at ho'
      exact (h o hs (OwnedStorage.source_of_goToLevel ho' ▸ hn)).goToLevel ho'

theorem LevelsNarrow.up (h : s.LevelsNarrow) : s.up.LevelsNarrow := by
  unfold FilterData.up
  split_ifs
  · exact h.goToLevel _
  · exact h

theorem levelsNarrow_resetToSource (hw : s.OwnedViewWf) : s.resetToSource.LevelsNarrow := by
  intro o' ho' hn
  cases hs : s.storage with
  | owned o =>
    simp only [FilterData.resetToSource, hs, DataStorage.owned.injEq] at ho'
    subst ho'
    exact OwnedStorage.narrows_resetToSource (hw o hs hn).storage.fullIndices
  | indexed x => simp [FilterData.resetToSource, hs] at ho'

theorem LevelsNarrow.releaseParent (h : s.LevelsNarrow) : s.releaseParent.LevelsNarrow := by
  unfold FilterData.releaseParent
  split
  · exact h
  · intro o ho
    cases ho

section Runs

variable (lower : List Char → List Char) (opText : FieldOperation N → String)

/-- A successful filtering call pushes a sublist of the current positions,
which the history in step makes the last level's. -/
theorem LevelsNarrow.filtering (hh : s.HistoryWf) (hw : s.OwnedViewWf) (h : s.LevelsNarrow)
    (c : FilteringCall N T) (hc : c.run lower opText s = .ok s') : s'.LevelsNarrow := by
  intro o' ho' hn
  obtain ⟨o, indices, ho, rfl, hn₀, -, hsub⟩ := hw.filtering_owned lower opText c hc ho' hn
  have hlast := hh.getLast?_levelPositions
  simp only [levelPositions, currentIndices, ho] at hlast
  exact (h o ho hn₀).pushLevel hlast hsub

/-- Every call keeps the levels narrowing, on a view whose history is in
step and which is well formed. -/
theorem LevelsNarrow.step (hh : s.HistoryWf) (hw : s.OwnedViewWf) (h : s.LevelsNarrow)
    (hst : Step lower opText s s') : s'.LevelsNarrow := by
  obtain ⟨c, hc⟩ := hst
  cases c with
  | filtering call =>
    rcases hc with hc | ⟨e, hc⟩
    · exact h.filtering lower opText hh hw call hc
    · exact h.of_storage (call.run_err lower opText hc).storage
  | goToLevel targetLevel =>
    rw [Outcome.eq_of_ok hc]
    exact h.goToLevel targetLevel
  | up =>
    rw [Outcome.eq_of_ok hc]
    exact h.up
  | resetToSource =>
    rw [Outcome.eq_of_ok hc]
    exact levelsNarrow_resetToSource hw
  | createFieldIndex name ty extractor => exact h.of_createIndex (createFieldIndex_storage hc)
  | createTextIndex name extractor => exact h.of_createIndex (createTextIndex_storage hc)
  | dropIndex name =>
    rw [Outcome.eq_of_ok hc]
    exact h.of_storage rfl
  | clearFiledIndex =>
    rw [Outcome.eq_of_ok hc]
    exact h.of_storage rfl
  | clearTextIndexes =>
    rw [Outcome.eq_of_ok hc]
    exact h.of_storage rfl
  | clearAllIndexes =>
    rw [Outcome.eq_of_ok hc]
    exact h.of_storage rfl
  | items =>
    rw [Outcome.eq_of_ok hc]
    exact h.items
  | releaseParent =>
    rw [Outcome.eq_of_ok hc]
    exact h.releaseParent

theorem levelsNarrow_initial (hs : Initial s) : s.LevelsNarrow := by
  rcases hs with ⟨items, rfl⟩ | ⟨parent, indices, rfl⟩
  · intro o ho _
    simp only [fromVec, DataStorage.owned.injEq] at ho
    subst ho
    exact ⟨rfl, List.isChain_singleton _⟩
  · intro o ho
    cases ho

theorem levelsNarrow_of_reachable (hr : s.Reachable lower opText) : s.LevelsNarrow :=
  Transition.Reachable.invariant_of (J := fun u => u.HistoryWf ∧ u.OwnedViewWf)
    (fun hr' => ⟨historyWf_of_reachable lower opText hr', ownedViewWf_of_reachable lower opText hr'⟩)
    (fun u (hu : Initial u) => levelsNarrow_initial hu)
    (fun u u' hJ (h : u.LevelsNarrow) (hst : Step lower opText u u') =>
      h.step lower opText hJ.1 hJ.2 hst) hr

/-- On every `Owned` view a run of calls reaches over fewer than `2^32`
rows, the first stored level holds every row of the source and each later
level's positions are a sublist of the previous level's: a drill-down only
narrows, and `go_to_level`, `up` and `reset_to_source` only move back along
it. -/
theorem owned_levels_narrow (hr : s.Reachable lower opText) (ho : s.storage = .owned o)
    (hn : o.source.length < 2 ^ 32) :
    o.levelIndices.head? = some (List.range o.source.length) ∧
      o.levelIndices.IsChain fun a b => b.Sublist a := by
  have h := levelsNarrow_of_reachable lower opText hr o ho hn
  exact ⟨h.head, h.chain⟩

/-- Keeping row `2` of `[1, 2, 3]` stores its position `1` as the second
level. -/
theorem owned_levels_narrow_keep_two :
    (((fromVec [1, 2, 3] : FilterData Numerics.exactRat Nat).filter fun x => decide (x = 2)).ok?.getD
        (fromVec [1, 2, 3])).Reachable id (fun _ => "") ∧
      (((fromVec [1, 2, 3] : FilterData Numerics.exactRat Nat).filter fun x => decide (x = 2)).ok?.getD
        (fromVec [1, 2, 3])).storage =
        .owned ⟨[1, 2, 3], [1], some [2], [0, 1, 2], [[1, 2, 3], [2]], [[0, 1, 2], [1]]⟩ ∧
      [1, 2, 3].length < 2 ^ 32 ∧
      ([[0, 1, 2], [1]].head? = some (List.range [1, 2, 3].length) ∧
        [[0, 1, 2], [1]].IsChain fun a b => b.Sublist a) := by
  have hr : (((fromVec [1, 2, 3] : FilterData Numerics.exactRat Nat).filter
      fun x => decide (x = 2)).ok?.getD (fromVec [1, 2, 3])).Reachable id (fun _ => "") :=
    .step (.init (.inl ⟨[1, 2, 3], rfl⟩)) ⟨.filtering (.filter fun x => decide (x = 2)), .inl rfl⟩
  exact ⟨hr, rfl, by decide, owned_levels_narrow id (fun _ => "") hr rfl (by decide)⟩

end Runs

end FilterData

end TreeMan
