import Mathlib
import TreeMan.Framework.SortedMap
import TreeMan.Proof.History
import TreeMan.Proof.GroupTree

/-!
# `group_by` partitions the current view

`items()` of a group's data returns the rows at its current positions: the
cache of `Owned` storage, when it holds rows, holds those (`CacheAgrees`).
Every call a client makes on the tree keeps this of every group
(`cacheAgrees_of_reachable`); `go_to_level`, which breaks it (see
`History`), is not among them, and the data of a new group is `Indexed`,
which has no cache, whatever its index creator calls on it.

On such a group `group_by` partitions the current positions by the key of
their parent row (`GroupedBy`): one subgroup for each key of the rows of
`items()`, holding the ascending positions of that key, one level deeper and
with the group for parent. Every cut of the positions into the pieces rayon
folds gives this (`getD_groupIndices`). A grouping that fails leaves the
tree, and so the map of subgroups, as it was.
`group_by_partitions_view` states both for every group of every heap a run
reaches.
-/

namespace TreeMan

/-- A call that cannot fail gives the state it computes. -/
theorem Outcome.eq_of_ok {σ : Type} {x y : σ}
    (hc : Outcome.ok x = .ok y ∨ ∃ e, (Outcome.ok x : Outcome σ) = .err e y) : y = x := by
  rcases hc with hc | ⟨e, hc⟩ <;> cases hc
  rfl

namespace FilterData

variable {N : Numerics} {T : Type} {s s' : FilterData N T}

/-! ### What `items()` returns -/

/-- The cache of `Owned` storage, when it holds rows, holds the rows at the
current positions; and the positions of the whole source are all its rows. -/
def CacheAgrees (s : FilterData N T) : Prop :=
  ∀ o, s.storage = .owned o → o.fullIndices = List.range o.source.length ∧
    (o.currentCache = none ∨ o.currentCache = some (OwnedStorage.rowsAt o.source o.currentIndices))

theorem CacheAgrees.of_storage (hst : s'.storage = s.storage) (hc : s.CacheAgrees) :
    s'.CacheAgrees := by
  intro o ho
  exact hc o (hst ▸ ho)

/-- `items()` returns the rows at the current positions of the parent. -/
theorem CacheAgrees.items_fst (hc : s.CacheAgrees) {parent : List T}
    (hp : s.parentData = some parent) :
    s.items.1 = OwnedStorage.rowsAt parent s.currentIndices := by
  cases hst : s.storage with
  | owned o =>
    simp only [parentData, hst, Option.some.injEq] at hp
    subst hp
    simp only [items, currentIndices, hst]
    rcases (hc o hst).2 with hcache | hcache <;> simp [hcache]
  | indexed x =>
    simp only [parentData, hst] at hp
    simp [items, currentIndices, hst, hp]

/-- `items()` keeps the cache in agreement: the rows it reads become the
cache. -/
theorem CacheAgrees.items_snd (hc : s.CacheAgrees) : s.items.2.CacheAgrees := by
  unfold items
  split
  · rename_i o hst
    split
    · exact hc
    · dsimp only
      split_ifs
      · intro o' ho'
        cases ho'
        exact ⟨(hc o hst).1, .inr rfl⟩
      · exact hc
  · split <;> exact hc

theorem cacheAgrees_fromVec (items : List T) : (fromVec items : FilterData N T).CacheAgrees := by
  intro o ho
  cases ho
  exact ⟨rfl, .inl rfl⟩

theorem cacheAgrees_of_indexed {x : IndexedStorage T} (hx : s.storage = .indexed x) :
    s.CacheAgrees := by
  intro o ho
  rw [hx] at ho
  cases ho

/-- Pushing a level keeps the cache in agreement: a pushed level caches its
rows, or nothing. -/
theorem CacheAgrees.of_pushesLevel (hc : s.CacheAgrees) (hp : PushesLevel s s') :
    s'.CacheAgrees := by
  intro o' ho'
  rcases hp with ⟨o, indices, hst, hst'⟩ | ⟨x, x', -, hst'⟩
  · rw [hst'] at ho'
    cases ho'
    have hfull := (hc o hst).1
    unfold OwnedStorage.pushLevel
    split_ifs
    · exact ⟨hfull, .inr rfl⟩
    · exact ⟨hfull, .inl rfl⟩
  · rw [hst'] at ho'
    cases ho'

/-- Resetting keeps the cache in agreement: the source is the rows at all of
its positions. -/
theorem CacheAgrees.resetToSource (hc : s.CacheAgrees) : s.resetToSource.CacheAgrees := by
  intro o' ho'
  unfold FilterData.resetToSource at ho'
  dsimp only at ho'
  split at ho'
  · rename_i o hst
    cases ho'
    have hfull := (hc o hst).1
    refine ⟨hfull, .inr ?_⟩
    rw [hfull, rowsAt_range]
  · cases ho'

theorem replaceIndex_storage {name expectedType : String} {s₁ : FilterData N T}
    (h : s.replaceIndex name expectedType = .ok s₁) : s₁.storage = s.storage := by
  unfold replaceIndex at h
  split_ifs at h
  · split at h
    · cases h
    · cases h; rfl
  · cases h; rfl

/-- What `create_field_index` leaves: the state, or the state after an old
index of the name is dropped and `items()` is read, with the new index. -/
theorem createFieldIndex_storage {name : String} {ty : FieldType} {extractor : T → ty.Carrier N}
    (hc : s.createFieldIndex name ty extractor = .ok s' ∨
      ∃ e, s.createFieldIndex name ty extractor = .err e s') :
    s' = s ∨ ∃ s₁ : FilterData N T, s₁.storage = s.storage ∧ s'.storage = s₁.items.2.storage := by
  unfold createFieldIndex at hc
  split at hc
  · rcases hc with hc | ⟨e, hc⟩ <;> cases hc
    exact .inl rfl
  · rename_i s₁ hs₁
    rcases hc with hc | ⟨e, hc⟩ <;> cases hc
    exact .inr ⟨s₁, replaceIndex_storage hs₁, rfl⟩

theorem createTextIndex_storage {lower : List Char → List Char} {name : String}
    {extractor : T → List Char}
    (hc : s.createTextIndex lower name extractor = .ok s' ∨
      ∃ e, s.createTextIndex lower name extractor = .err e s') :
    s' = s ∨ ∃ s₁ : FilterData N T, s₁.storage = s.storage ∧ s'.storage = s₁.items.2.storage := by
  unfold createTextIndex at hc
  split at hc
  · rcases hc with hc | ⟨e, hc⟩ <;> cases hc
    exact .inl rfl
  · rename_i s₁ hs₁
    dsimp only at hc
    split at hc
    · rcases hc with hc | ⟨e, hc⟩ <;> cases hc
      exact .inr ⟨s₁, replaceIndex_storage hs₁, rfl⟩
    · rcases hc with hc | ⟨e, hc⟩ <;> cases hc

theorem CacheAgrees.of_createIndex (hc : s.CacheAgrees)
    (h : s' = s ∨ ∃ s₁ : FilterData N T, s₁.storage = s.storage ∧ s'.storage = s₁.items.2.storage) :
    s'.CacheAgrees := by
  rcases h with rfl | ⟨s₁, hst₁, hst'⟩
  · exact hc
  · exact ((hc.of_storage hst₁).items_snd).of_storage hst'

/-! ### `Indexed` storage stays `Indexed` -/

/-- The storage is a view of a parent's rows. -/
def IsIndexed (s : FilterData N T) : Prop := ∃ x, s.storage = .indexed x

theorem IsIndexed.cacheAgrees (hx : s.IsIndexed) : s.CacheAgrees :=
  cacheAgrees_of_indexed hx.choose_spec

theorem IsIndexed.of_storage (hst : s'.storage = s.storage) (hx : s.IsIndexed) : s'.IsIndexed :=
  ⟨hx.choose, hst.trans hx.choose_spec⟩

theorem IsIndexed.items_snd (hx : s.IsIndexed) : s.items.2 = s := by
  obtain ⟨x, hst⟩ := hx
  unfold items
  rw [hst]
  dsimp only
  split <;> rfl

theorem IsIndexed.of_createIndex (hx : s.IsIndexed)
    (h : s' = s ∨ ∃ s₁ : FilterData N T, s₁.storage = s.storage ∧ s'.storage = s₁.items.2.storage) :
    s'.IsIndexed := by
  rcases h with rfl | ⟨s₁, hst₁, hst'⟩
  · exact hx
  · have hx₁ := hx.of_storage hst₁
    exact hx₁.of_storage (hst'.trans (congrArg storage hx₁.items_snd))

theorem refreshMask_storage : (refreshMask s).storage = s.storage := by
  unfold refreshMask
  dsimp only
  split_ifs <;> rfl

theorem IsIndexed.goToLevel (hx : s.IsIndexed) (targetLevel : Nat) :
    (s.goToLevel targetLevel).IsIndexed := by
  obtain ⟨x, hst⟩ := hx
  unfold FilterData.goToLevel
  dsimp only
  by_cases hlt : targetLevel ≥ s.levelInfo.length
  · rw [if_pos hlt]
    exact ⟨x, hst⟩
  · rw [if_neg hlt, IsIndexed, refreshMask_storage]
    simp [DataStorage.goToLevel, hst]

theorem IsIndexed.step (lower : List Char → List Char) (opText : FieldOperation N → String)
    (hx : s.IsIndexed) (hst : Step lower opText s s') : s'.IsIndexed := by
  obtain ⟨c, hc⟩ := hst
  cases c with
  | filtering call =>
    rcases hc with hc | ⟨e, hc⟩
    · rcases call.run_ok lower opText hc with ⟨o, -, hown, -⟩ | ⟨-, x', -, hst'⟩
      · obtain ⟨x, hx⟩ := hx
        rw [hx] at hown
        cases hown
      · exact ⟨x', hst'⟩
    · exact hx.of_storage (call.run_err lower opText hc).storage
  | goToLevel targetLevel =>
    rw [Outcome.eq_of_ok hc]
    exact hx.goToLevel targetLevel
  | up =>
    rw [Outcome.eq_of_ok hc]
    unfold FilterData.up
    split_ifs
    · exact hx.goToLevel _
    · exact hx
  | resetToSource =>
    rw [Outcome.eq_of_ok hc]
    obtain ⟨x, hst⟩ := hx
    refine ⟨{ x with currentIndices := x.sourceIndices, indexLevels := [x.sourceIndices] }, ?_⟩
    simp [FilterData.resetToSource, hst]
  | createFieldIndex name ty extractor => exact hx.of_createIndex (createFieldIndex_storage hc)
  | createTextIndex name extractor => exact hx.of_createIndex (createTextIndex_storage hc)
  | dropIndex name => rw [Outcome.eq_of_ok hc]; exact hx.of_storage rfl
  | clearFiledIndex => rw [Outcome.eq_of_ok hc]; exact hx.of_storage rfl
  | clearTextIndexes => rw [Outcome.eq_of_ok hc]; exact hx.of_storage rfl
  | clearAllIndexes => rw [Outcome.eq_of_ok hc]; exact hx.of_storage rfl
  | items => rw [Outcome.eq_of_ok hc, hx.items_snd]; exact hx
  | releaseParent =>
    rw [Outcome.eq_of_ok hc]
    obtain ⟨x, hst⟩ := hx
    exact ⟨{ x with parentData := none }, by simp [FilterData.releaseParent, hst]⟩

theorem isIndexed_fromIndices (parent : List T) (indices : List Nat) :
    (fromIndices parent indices : FilterData N T).IsIndexed :=
  ⟨_, rfl⟩

end FilterData

open FilterData

namespace Groups

variable {K : Type} [LinearOrder K] {N : Numerics} {T : Type}
variable (lower : List Char → List Char) (opText : FieldOperation N → String)

/-! ### The data of every group -/

/-- The data of every group of the heap satisfies `P`. -/
def AllData (P : FilterData N T → Prop) (h : Groups K N T) : Prop :=
  ∀ b g, h.node? b = some g → P g.data

section AllData

variable {P : FilterData N T → Prop} {h h' : Groups K N T}

/-- The one group of `new_root` holds `from_vec` of the rows. -/
theorem allData_newRoot {key : K} {data : List T} {description : String}
    (h0 : P (FilterData.fromVec data)) : AllData P (newRoot key data description) := by
  intro b g hg
  cases b with
  | zero =>
    cases hg
    exact h0
  | succ b => simp [newRoot, node?] at hg

theorem AllData.modify (hP : AllData P h) {a : Nat} {f : GroupData K N T → GroupData K N T}
    (hf : ∀ g, P g.data → P (f g).data) : AllData P (h.modify a f) := by
  intro b g hg
  rw [node?_modify] at hg
  split_ifs at hg
  · obtain ⟨g₀, hg₀, rfl⟩ := Option.map_eq_some_iff.mp hg
    exact hf g₀ (hP b g₀ hg₀)
  · exact hP b g hg

theorem AllData.foldl {α : Type} {F : Groups K N T → α → Groups K N T}
    (hF : ∀ h x, AllData P h → AllData P (F h x)) (l : List α) :
    ∀ h, AllData P h → AllData P (l.foldl F h) := by
  induction l with
  | nil => exact fun _ hP => hP
  | cons x l ih => exact fun h hP => ih (F h x) (hF h x hP)

theorem AllData.updateData (hP : AllData P h) (a : Nat) {f : FilterData N T → FilterData N T}
    (hf : ∀ d, P d → P (f d)) : AllData P (h.updateData a f) :=
  hP.modify fun g => hf g.data

/-- Clearing keeps a property of every group's data: it touches only maps. -/
theorem AllData.clearSubgroupsFrom (fuel : Nat) :
    ∀ (h : Groups K N T) (a : Nat), AllData P h → AllData P (clearSubgroupsFrom fuel h a) := by
  induction fuel with
  | zero => exact fun _ _ hP => hP
  | succ fuel ih =>
    intro h a hP
    exact (AllData.foldl (fun h c => ih h c) _ h hP).modify fun _ hg => hg

section Navigation

variable (hreset : ∀ d, P d → P d.resetToSource.clearAllIndexes)
include hreset

theorem AllData.cleanPath (path : List Nat) (hP : AllData P h) : AllData P (h.cleanPath path) :=
  AllData.foldl (fun h a hP => (AllData.clearSubgroupsFrom _ h a hP).updateData a hreset) path h hP

theorem AllData.goToParent (a : Nat) (hP : AllData P h) : AllData P (h.goToParent a).1 := by
  unfold Groups.goToParent
  split
  · exact hP
  · exact AllData.cleanPath hreset _ hP

theorem AllData.goToParentCurrent (a : Nat) (key : K) (hP : AllData P h) :
    AllData P (h.goToParentCurrent a key).1 := by
  unfold Groups.goToParentCurrent
  split
  · exact hP
  · exact AllData.cleanPath hreset _ hP

theorem AllData.goToRoot (a : Nat) (hP : AllData P h) : AllData P (h.goToRoot a).1 :=
  AllData.cleanPath hreset _ hP

end Navigation

/-- A call on a group's data whose every outcome satisfies `P`. -/
theorem AllData.dataCall (hP : AllData P h) {a : Nat}
    {f : FilterData N T → Outcome (FilterData N T)}
    (hf : ∀ d d', P d → (f d = .ok d' ∨ ∃ e, f d = .err e d') → P d')
    (hc : h.dataCall a f = .ok h' ∨ ∃ e, h.dataCall a f = .err e h') : AllData P h' := by
  unfold Groups.dataCall at hc
  split at hc
  · rw [Outcome.eq_of_ok hc]
    exact hP
  · rename_i g hg
    have hdata := hP a g hg
    split at hc
    · rename_i d' hd'
      rcases hc with hc | ⟨e, hc⟩ <;> cases hc
      exact hP.modify fun _ _ => hf _ _ hdata (.inl hd')
    · rename_i e d' hd'
      rcases hc with hc | ⟨e, hc⟩ <;> cases hc
      exact hP.modify fun _ _ => hf _ _ hdata (.inr ⟨e, hd'⟩)
    · rcases hc with hc | ⟨e, hc⟩ <;> cases hc

/-- The new groups come after every other, each with the data its index
creator made. -/
theorem AllData.attach (hP : AllData P h) {a : Nat} {m : SortedMap K Nat}
    {newNodes : List (GroupData K N T)} (hnew : ∀ g ∈ newNodes, P g.data) :
    AllData P ⟨(h.modify a fun g => { g with subgroups := m }).nodes ++ newNodes⟩ := by
  intro b g hg
  rcases node?_attach_cases hg with ⟨g₀, hg₀, rfl⟩ | ⟨-, hnew'⟩
  · have hdata := hP b g₀ hg₀
    split_ifs <;> exact hdata
  · exact hnew g (List.mem_of_getElem? hnew')

omit [LinearOrder K] in
/-- Each new group's data is what the index creator made of the positions of
one key: the first key's data, then the others'. -/
theorem makeChildren_mem {parent : List T} {creator : IndexCreator lower opText T} :
    ∀ {grouped : List (K × List Nat)} {children : List (K × FilterData N T)},
      makeChildren lower opText parent creator grouped = .ok children →
      ∀ p ∈ children, ∃ q ∈ grouped,
        creator.run (FilterData.fromIndices parent q.2.mergeSort) = .ok p.2
  | [], children, hc, p, hp => by
    cases hc
    cases hp
  | q :: grouped, children, hc, p, hp => by
    unfold makeChildren at hc
    rw [List.mapM_cons] at hc
    cases hq : creator.run (FilterData.fromIndices parent q.2.mergeSort) with
    | error err => rw [hq] at hc; cases hc
    | ok d =>
      cases hrest : makeChildren lower opText parent creator grouped with
      | error err =>
        unfold makeChildren at hrest
        rw [hq, hrest] at hc
        cases hc
      | ok rest =>
        unfold makeChildren at hrest
        rw [hq, hrest] at hc
        cases hc
        rcases List.mem_cons.mp hp with rfl | hp
        · exact ⟨q, List.mem_cons_self, hq⟩
        · obtain ⟨q', hq', hrun⟩ := makeChildren_mem hrest p hp
          exact ⟨q', List.mem_cons_of_mem _ hq', hrun⟩

theorem AllData.groupByWithIndexes (hP : AllData P h) {a : Nat} {split : Split Nat}
    {extractor : T → K} {description : String} {creator : IndexCreator lower opText T}
    (hcreated : ∀ parent indices d,
      creator.run (FilterData.fromIndices parent indices) = .ok d → P d)
    (hc : h.groupByWithIndexes lower opText a split extractor description creator = .ok h' ∨
      ∃ e, h.groupByWithIndexes lower opText a split extractor description creator = .err e h') :
    AllData P h' := by
  rcases hc with hc | ⟨e, hc⟩
  · unfold Groups.groupByWithIndexes at hc
    split at hc
    · cases hc
      exact hP
    · split at hc
      · cases hc
      · dsimp only at hc
        split at hc
        · split at hc
          · cases hc
          · rename_i children hchildren
            cases hc
            refine hP.attach fun g hg => ?_
            obtain ⟨p, hp, rfl⟩ := List.mem_map.mp hg
            obtain ⟨q, -, hrun⟩ := makeChildren_mem lower opText hchildren p hp
            exact hcreated _ _ _ hrun
        · cases hc
  · rw [groupByWithIndexes_err lower opText hc]
    exact hP

end AllData

/-! ### Every call keeps the caches -/

section Caches

variable {h h' : Groups K N T}

theorem cacheAgrees_resetToSource_clearAllIndexes (d : FilterData N T) (hd : d.CacheAgrees) :
    d.resetToSource.clearAllIndexes.CacheAgrees :=
  hd.resetToSource.of_storage rfl

/-- The data an index creator leaves is a view, as `from_indices` made it. -/
theorem IndexCreator.isIndexed (creator : IndexCreator lower opText T) {parent : List T}
    {indices : List Nat} {d : FilterData N T}
    (hrun : creator.run (FilterData.fromIndices parent indices) = .ok d) : d.IsIndexed :=
  Transition.keeps_of_reflTransGen (fun _ _ hs hst => hs.step lower opText hst)
    (creator.calls _ _ hrun) (isIndexed_fromIndices parent indices)

/-- Every group call keeps each group's cache in agreement: a success reads
`items()` after the level is pushed, and a failure writes the mask only. -/
theorem cacheAgrees_step (hP : AllData CacheAgrees h) (hst : Step lower opText h h') :
    AllData CacheAgrees h' := by
  obtain ⟨a, c, hc⟩ := hst
  cases c with
  | groupByWithIndexes split extractor description creator =>
    exact hP.groupByWithIndexes lower opText
      (fun _ _ _ hrun => (IndexCreator.isIndexed lower opText creator hrun).cacheAgrees) hc
  | filtering call =>
    dsimp only [GroupCall.run, filtering] at hc
    refine hP.dataCall (fun d d' hd hd' => ?_) hc
    rcases hd' with hd' | ⟨e, hd'⟩ <;> split at hd'
    · rename_i s hs
      cases hd'
      exact (hd.of_pushesLevel (call.run_ok lower opText hs)).items_snd
    · cases hd'
    · cases hd'
    · cases hd'
    · rename_i e' s hs
      cases hd'
      exact hd.of_storage (call.run_err lower opText hs).storage
    · cases hd'
  | resetFilters =>
    rw [Outcome.eq_of_ok hc]
    exact hP.modify fun g hg => hg.resetToSource
  | createFieldIndex name ty extractor =>
    exact hP.dataCall (fun d d' hd hd' => hd.of_createIndex (createFieldIndex_storage hd')) hc
  | createTextIndex name extractor =>
    exact hP.dataCall (fun d d' hd hd' => hd.of_createIndex (createTextIndex_storage hd')) hc
  | clearAllIndexes =>
    rw [Outcome.eq_of_ok hc]
    exact hP.updateData a fun d hd => hd.of_storage rfl
  | clearFieldIndexes =>
    rw [Outcome.eq_of_ok hc]
    exact hP.updateData a fun d hd => hd.of_storage rfl
  | clearTextIndexes =>
    rw [Outcome.eq_of_ok hc]
    exact hP.updateData a fun d hd => hd.of_storage rfl
  | clearSubgroups =>
    rw [Outcome.eq_of_ok hc]
    exact AllData.clearSubgroupsFrom _ h a hP
  | goToParent =>
    rw [Outcome.eq_of_ok hc]
    exact AllData.goToParent cacheAgrees_resetToSource_clearAllIndexes a hP
  | goToParentCurrent key =>
    rw [Outcome.eq_of_ok hc]
    exact AllData.goToParentCurrent cacheAgrees_resetToSource_clearAllIndexes a key hP
  | goToRoot =>
    rw [Outcome.eq_of_ok hc]
    exact AllData.goToRoot cacheAgrees_resetToSource_clearAllIndexes a hP

/-- On every heap a run reaches, `items()` of every group returns the rows
at its current positions. -/
theorem cacheAgrees_of_reachable (hr : Reachable lower opText h) : AllData CacheAgrees h := by
  refine Transition.Reachable.invariant (fun s hs => ?_)
    (fun s s' (hs : AllData CacheAgrees s) (hst : Step lower opText s s') =>
      cacheAgrees_step lower opText hs hst) hr
  obtain ⟨key, data, description, rfl⟩ := hs
  exact allData_newRoot (cacheAgrees_fromVec data)

end Caches

/-! ### What grouping computes -/

section Computing

variable {parent : List T} {extractor : T → K}

/-- One thread's map: each position under the key of its parent row. -/
theorem getD_groupPiece (piece : List Nat) (k : K) :
    (groupPiece parent extractor piece).getD k [] =
      piece.filter fun idx => parent[idx]?.map extractor = some k := by
  induction piece using List.reverseRecOn with
  | nil => rfl
  | append_singleton piece idx ih =>
    rw [groupPiece, List.foldl_append, ← groupPiece, List.foldl_cons, List.foldl_nil,
      List.filter_append, ← ih]
    split
    · rename_i item hp
      by_cases hk : extractor item = k
      · subst hk
        simp [SortedMap.getD_push, hp]
      · simp [SortedMap.getD_push, hp, hk, Ne.symm hk]
    · rename_i hp
      simp [hp]

theorem find?_groupPiece_isSome (piece : List Nat) (k : K) :
    ((groupPiece parent extractor piece).find? k).isSome ↔
      ∃ idx ∈ piece, parent[idx]?.map extractor = some k := by
  induction piece using List.reverseRecOn with
  | nil => simp [groupPiece]
  | append_singleton piece idx ih =>
    rw [groupPiece, List.foldl_append, ← groupPiece, List.foldl_cons, List.foldl_nil]
    split
    · rename_i item hp
      simp only [SortedMap.push, SortedMap.find?_alter]
      by_cases hk : k = extractor item
      · subst hk
        simp [hp]
      · simp [ih, hp, hk, Ne.symm hk]
    · rename_i hp
      simp [ih, hp]

/-- The joined maps of the pieces: each position under the key of its parent
row, in the order of the pieces, whatever the cut. -/
theorem getD_groupIndices (pieces : List (List Nat)) (k : K) :
    (groupIndices parent extractor pieces).getD k [] =
      pieces.flatten.filter fun idx => parent[idx]?.map extractor = some k := by
  have hfold : ∀ acc : SortedMap K (List Nat),
      (pieces.foldl (fun acc piece => acc.mergeAppend (groupPiece parent extractor piece)) acc).getD
        k [] = acc.getD k [] ++ pieces.flatten.filter fun idx => parent[idx]?.map extractor = some k := by
    induction pieces with
    | nil => simp
    | cons piece pieces ih =>
      intro acc
      rw [List.foldl_cons, ih, SortedMap.getD_mergeAppend, getD_groupPiece]
      simp [List.filter_append]
  rw [groupIndices, hfold]
  simp [SortedMap.getD]

theorem find?_groupIndices_isSome (pieces : List (List Nat)) (k : K) :
    ((groupIndices parent extractor pieces).find? k).isSome ↔
      ∃ idx ∈ pieces.flatten, parent[idx]?.map extractor = some k := by
  have hfold : ∀ acc : SortedMap K (List Nat),
      ((pieces.foldl (fun acc piece => acc.mergeAppend (groupPiece parent extractor piece))
        acc).find? k).isSome ↔
        (acc.find? k).isSome ∨ ∃ idx ∈ pieces.flatten, parent[idx]?.map extractor = some k := by
    induction pieces with
    | nil => simp
    | cons piece pieces ih =>
      intro acc
      rw [List.foldl_cons, ih, SortedMap.find?_isSome_mergeAppend, find?_groupPiece_isSome]
      simp only [List.flatten_cons, List.mem_append, or_assoc]
      constructor
      · rintro (h | ⟨idx, hidx, hk⟩ | ⟨idx, hidx, hk⟩)
        · exact .inl h
        · exact .inr ⟨idx, .inl hidx, hk⟩
        · exact .inr ⟨idx, .inr hidx, hk⟩
      · rintro (h | ⟨idx, hidx | hidx, hk⟩)
        · exact .inl h
        · exact .inr (.inl ⟨idx, hidx, hk⟩)
        · exact .inr (.inr ⟨idx, hidx, hk⟩)
  rw [groupIndices, hfold]
  simp

omit [LinearOrder K] in
/-- `group_by`'s index creator leaves each key's view as `from_indices`
made it. -/
theorem makeChildren_ok (grouped : List (K × List Nat)) :
    makeChildren lower opText parent (IndexCreator.ok lower opText) grouped =
      .ok (grouped.map fun p => (p.1, FilterData.fromIndices parent p.2.mergeSort)) :=
  List.mapM_pure

/-- The entry of a key holds the positions of that key. -/
theorem eq_of_mem_groupIndices {pieces : List (List Nat)} {k : K} {l : List Nat}
    (hmem : (k, l) ∈ (groupIndices parent extractor pieces).entries) :
    l = pieces.flatten.filter fun idx => parent[idx]?.map extractor = some k := by
  have hfind := SortedMap.find?_eq_some_iff.mpr hmem
  rw [← getD_groupIndices, SortedMap.getD, hfind]
  rfl

omit [LinearOrder K] in
/-- The keys of the rows at some positions. -/
theorem mem_map_rowsAt_iff {indices : List Nat} {k : K} :
    k ∈ (OwnedStorage.rowsAt parent indices).map extractor ↔
      ∃ i ∈ indices, parent[i]?.map extractor = some k := by
  simp only [OwnedStorage.rowsAt, List.mem_map, List.mem_filterMap, Option.map_eq_some_iff]
  constructor
  · rintro ⟨x, ⟨i, hi, hx⟩, rfl⟩
    exact ⟨i, hi, x, hx, rfl⟩
  · rintro ⟨i, hi, x, hx, rfl⟩
    exact ⟨x, ⟨i, hi, hx⟩, rfl⟩

end Computing

/-! ### `group_by` partitions the current view -/

/-- The current positions of the group at `c`, none if there is no group. -/
def currentIndicesOf (h : Groups K N T) (c : Nat) : List Nat :=
  ((h.node? c).map (·.data.currentIndices)).getD []

theorem currentIndicesOf_of_node? {h : Groups K N T} {c : Nat} {gc : GroupData K N T}
    (hc : h.node? c = some gc) : h.currentIndicesOf c = gc.data.currentIndices := by
  simp [currentIndicesOf, hc]

/-- Each entry of `m` names a group one level below `a` that holds, in
ascending order, the positions of `g` whose parent row has the entry's key. -/
def ChildrenByKey (h' : Groups K N T) (a : Nat) (g : GroupData K N T) (m : SortedMap K Nat)
    (parent : List T) (extractor : T → K) : Prop :=
  ∀ k c, (k, c) ∈ m.entries → ∃ gc, h'.node? c = some gc ∧ gc.key = k ∧
    gc.parent = some a ∧ gc.depth = g.depth + 1 ∧ gc.data.currentIndices.Pairwise (· ≤ ·) ∧
    gc.data.currentIndices.Perm
      (g.data.currentIndices.filter fun i => parent[i]?.map extractor = some k)

/-- What `group_by` leaves under the group at `a`, whose state before was
`g`: a map `m` with a key for each key of the rows `items()` returned, each
naming a subgroup of the positions of that key; no position is in two
subgroups, and together they hold the current positions. -/
structure GroupedBy (h' : Groups K N T) (a : Nat) (g : GroupData K N T) (m : SortedMap K Nat)
    (parent : List T) (extractor : T → K) : Prop where
  keys : ∀ k, k ∈ m.keys ↔ k ∈ g.data.items.1.map extractor
  child : ChildrenByKey h' a g m parent extractor
  disjoint : (h'.childrenOf a).Pairwise fun c c' =>
    (h'.currentIndicesOf c).Disjoint (h'.currentIndicesOf c')
  partition : ((h'.childrenOf a).flatMap h'.currentIndicesOf).Perm g.data.currentIndices

section Partition

variable {h' : Groups K N T} {a : Nat} {g : GroupData K N T} {m : SortedMap K Nat}
  {parent : List T} {extractor : T → K}

theorem childrenOf_of_node? (hnode : h'.node? a = some { g with subgroups := m }) :
    h'.childrenOf a = m.entries.map (·.2) := by
  simp [childrenOf, hnode]

/-- Subgroups of two keys share no position: a position has one key. -/
theorem ChildrenByKey.disjoint (hchild : ChildrenByKey h' a g m parent extractor)
    (hnode : h'.node? a = some { g with subgroups := m }) :
    (h'.childrenOf a).Pairwise fun c c' =>
      (h'.currentIndicesOf c).Disjoint (h'.currentIndicesOf c') := by
  rw [childrenOf_of_node? hnode, List.pairwise_map]
  refine m.sorted.imp_of_mem fun {e e'} he he' hlt i hi hi' => ?_
  obtain ⟨gc, hgc, -, -, -, -, hperm⟩ := hchild e.1 e.2 he
  obtain ⟨gc', hgc', -, -, -, -, hperm'⟩ := hchild e'.1 e'.2 he'
  rw [currentIndicesOf_of_node? hgc] at hi
  rw [currentIndicesOf_of_node? hgc'] at hi'
  have hk := (List.mem_filter.mp (hperm.mem_iff.mp hi)).2
  have hk' := (List.mem_filter.mp (hperm'.mem_iff.mp hi')).2
  simp only [decide_eq_true_eq] at hk hk'
  exact (ne_of_lt hlt) (Option.some.inj (hk.symm.trans hk'))

/-- Together the subgroups hold each current position once: each subgroup
holds the positions of its key, and every position's key is a key of the
map. -/
theorem ChildrenByKey.partition (hchild : ChildrenByKey h' a g m parent extractor)
    (hnode : h'.node? a = some { g with subgroups := m })
    (hall : ∀ i ∈ g.data.currentIndices, ∃ k ∈ m.keys, parent[i]?.map extractor = some k) :
    ((h'.childrenOf a).flatMap h'.currentIndicesOf).Perm g.data.currentIndices := by
  rw [childrenOf_of_node? hnode, List.flatMap_map]
  have hpieces : (m.entries.flatMap fun e => h'.currentIndicesOf e.2).Perm
      (m.entries.flatMap fun e =>
        g.data.currentIndices.filter fun i => parent[i]?.map extractor = some e.1) :=
    List.Perm.flatMap_left _ fun e he => by
      obtain ⟨gc, hgc, -, -, -, -, hperm⟩ := hchild e.1 e.2 he
      rw [currentIndicesOf_of_node? hgc]
      exact hperm
  have hkeys : (m.keys.map some).Nodup :=
    List.Nodup.map (Option.some_injective K) (m.keys_sorted.imp ne_of_lt)
  refine hpieces.trans ?_
  have hsplit := SortedMap.perm_flatMap_filter (fun i => parent[i]?.map extractor)
    g.data.currentIndices hkeys fun i hi => by
      obtain ⟨k, hk, hik⟩ := hall i hi
      exact List.mem_map.mpr ⟨k, hk, hik.symm⟩
  rw [List.flatMap_map] at hsplit
  rwa [SortedMap.keys, List.flatMap_map] at hsplit

end Partition

section GroupBy

variable {h h' : Groups K N T} {a : Nat} {g : GroupData K N T} {split : Split Nat}
  {extractor : T → K} {description : String}

omit [LinearOrder K] in
theorem map_fst_newSubgroups {α β : Type} (l : List (α × β)) (start : Nat) :
    (l.zipIdx.map fun p => (p.1.1, start + p.2)).map (·.1) = l.map (·.1) := by
  calc (l.zipIdx.map fun p => (p.1.1, start + p.2)).map (·.1)
      = (l.zipIdx.map Prod.fst).map Prod.fst := by rw [List.map_map, List.map_map]; rfl
    _ = l.map (·.1) := by rw [List.zipIdx_map_fst]

/-- The heap grouping leaves, for new groups of `children`: each key of a
current position has a group, which holds the ascending positions of its
key. The map's keys are the children's, those of the rows of `items()`, and
`parent_data[idx]` found the row of every current position. -/
theorem groupedBy_attach (hcache : g.data.CacheAgrees) (hg : h.node? a = some g)
    {parent : List T} (hparent : g.data.parentData = some parent)
    (hrange : ∀ i ∈ g.data.currentIndices, i < parent.length)
    {children : List (K × FilterData N T)}
    (hkeys : ∀ k, k ∈ children.map (·.1) ↔
      ∃ i ∈ g.data.currentIndices, parent[i]?.map extractor = some k)
    (hdata : ∀ k d, (k, d) ∈ children → d.currentIndices.Pairwise (· ≤ ·) ∧
      d.currentIndices.Perm (g.data.currentIndices.filter fun i => parent[i]?.map extractor = some k)) :
    GroupedBy ⟨(h.modify a fun g => { g with subgroups := SortedMap.ofList (children.zipIdx.map
        fun p => (p.1.1, h.nodes.length + p.2)) }).nodes ++
        children.map fun p =>
          ({ key := p.1, data := p.2, parent := some a, subgroups := SortedMap.empty,
             description := some description, depth := g.depth + 1 } : GroupData K N T)⟩
      a g (SortedMap.ofList (children.zipIdx.map fun p => (p.1.1, h.nodes.length + p.2)))
      parent extractor := by
  set m := SortedMap.ofList (children.zipIdx.map fun p => (p.1.1, h.nodes.length + p.2)) with hm
  set h' : Groups K N T := ⟨(h.modify a fun g => { g with subgroups := m }).nodes ++
    children.map fun p =>
      ({ key := p.1, data := p.2, parent := some a, subgroups := SortedMap.empty,
         description := some description, depth := g.depth + 1 } : GroupData K N T)⟩ with hh'
  have hnode : h'.node? a = some { g with subgroups := m } := by
    rw [hh', node?_attach_of_old hg, if_pos rfl]
  have hmkeys : ∀ k, k ∈ m.keys ↔ k ∈ g.data.items.1.map extractor := by
    intro k
    rw [hm, SortedMap.mem_keys_ofList, map_fst_newSubgroups, hkeys, hcache.items_fst hparent,
      mem_map_rowsAt_iff]
  have hchild : ChildrenByKey h' a g m parent extractor := by
    intro k c hk
    obtain ⟨hle, d, hd⟩ := mem_newSubgroups hk
    obtain ⟨hsorted, hperm⟩ := hdata k d (List.mem_of_getElem? hd)
    refine ⟨_, (node?_attach_of_new hle).trans (by rw [List.getElem?_map, hd]; rfl),
      rfl, rfl, rfl, hsorted, hperm⟩
  have hall : ∀ i ∈ g.data.currentIndices, ∃ k ∈ m.keys, parent[i]?.map extractor = some k := by
    intro i hi
    have hlt := hrange i hi
    refine ⟨extractor parent[i], (hmkeys _).mpr ?_, by simp [hlt]⟩
    rw [hcache.items_fst hparent, mem_map_rowsAt_iff]
    exact ⟨i, hi, by simp [hlt]⟩
  exact ⟨hmkeys, hchild, hchild.disjoint hnode, hchild.partition hnode hall⟩

/-- A `group_by` that succeeds on a group whose `items()` returns the rows
at its positions partitions them: a key of the map is a key of some
position, whatever the cut rayon makes. -/
theorem groupedBy_of_groupBy (hcache : g.data.CacheAgrees) (hg : h.node? a = some g)
    (hc : h.groupBy lower opText a split extractor description = .ok h') :
    ∃ m parent, h'.node? a = some { g with subgroups := m } ∧ g.data.parentData = some parent ∧
      GroupedBy h' a g m parent extractor := by
  unfold groupBy Groups.groupByWithIndexes at hc
  rw [hg] at hc
  dsimp only at hc
  split at hc
  · cases hc
  · rename_i parent hparent
    split at hc
    · rename_i hrange
      rw [makeChildren_ok] at hc
      dsimp only at hc
      cases hc
      refine ⟨_, parent, ?_, hparent, groupedBy_attach hcache hg hparent
        (fun i hi => of_decide_eq_true (List.all_eq_true.mp hrange i hi)) (fun k => ?_)
        (fun k d hkd => ?_)⟩
      · rw [node?_attach_of_old hg, if_pos rfl]
      · rw [List.map_map]
        refine SortedMap.mem_keys_iff_find?.trans ((find?_groupIndices_isSome _ k).trans ?_)
        rw [split.flatten_cut]
      · obtain ⟨⟨k', l⟩, hl, hkd'⟩ := List.mem_map.mp hkd
        cases hkd'
        refine ⟨List.pairwise_mergeSort' (· ≤ ·) l, ?_⟩
        rw [← split.flatten_cut g.data.currentIndices, ← eq_of_mem_groupIndices hl]
        exact List.mergeSort_perm l _
    · cases hc

/-- What `group_by` and `group_by_with_indexes` do to the group at `a`,
whose state is `g`. -/
structure GroupByContract (h : Groups K N T) (a : Nat) (g : GroupData K N T) : Prop where
  partitions : ∀ (split : Split Nat) (extractor : T → K) (description : String)
    (h' : Groups K N T), h.groupBy lower opText a split extractor description = .ok h' →
      ∃ m parent, h'.node? a = some { g with subgroups := m } ∧
        g.data.parentData = some parent ∧ GroupedBy h' a g m parent extractor
  err_keeps : ∀ (split : Split Nat) (extractor : T → K) (description : String)
    (creator : IndexCreator lower opText T) (e : GLobalError) (h' : Groups K N T),
    h.groupByWithIndexes lower opText a split extractor description creator = .err e h' →
      h'.node? a = some g

theorem group_by_partitions_view (hr : Reachable lower opText h) (hg : h.node? a = some g) :
    GroupByContract lower opText h a g where
  partitions _ _ _ _ hc :=
    groupedBy_of_groupBy lower opText (cacheAgrees_of_reachable lower opText hr a g hg) hg hc
  err_keeps _ _ _ _ _ _ hc := by
    rw [groupByWithIndexes_err lower opText hc]
    exact hg

/-- Grouping again the subgroup of key `1`. -/
theorem group_by_partitions_view_groupedTwo :
    Reachable id (fun _ => "") groupedTwo ∧
      ∃ g, groupedTwo.node? 1 = some g ∧ GroupByContract id (fun _ => "") groupedTwo 1 g := by
  have hsome : (groupedTwo.node? 1).isSome := by decide +kernel
  obtain ⟨g, hg⟩ := Option.isSome_iff_exists.mp hsome
  exact ⟨reachable_groupedTwo, g, hg, group_by_partitions_view id (fun _ => "") reachable_groupedTwo hg⟩

end GroupBy

end Groups

end TreeMan
