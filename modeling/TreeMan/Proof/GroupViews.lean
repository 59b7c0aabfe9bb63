import Mathlib
import TreeMan.Proof.Narrowing
import TreeMan.Proof.Navigation

/-!
# The data of every group runs the `FilterData` API

A group holds a `FilterData`, and every group call reaches it through the
methods of `FilterData` only. The call changes the data of each group by a
run of calls of that API, and keeps the group at its address. A successful
filtering call is the call, then the `items()` read after it; navigation
runs `reset_to_source` then `clear_all_indexes` on each group it cleans.
A new group starts as `from_indices` over the rows that a group already
there reads, followed by the calls of its index creator (`Step.dataRuns`).
The tree of groups is thus a set of runs of the `FilterData` system, one per
group:

* `group_data_reachable`: on every heap a run of group calls reaches, the
  data of every group is a state a run of calls on a `FilterData` reaches,
  so each invariant proved over such runs holds in every group;
* `groups_read_root_rows`: the root's data stays an `Owned` view, and
  every group reads the root's source rows: its `items()` are the root's
  rows at its current positions, unless its parent rows have been freed.
-/

namespace TreeMan

/-! ### The rows a view reads -/

/-- What the calls of the API do to the rows a view reads: an `Owned`
storage stays `Owned` over the same source; an `Indexed` one stays
`Indexed`, its parent rows kept or freed. -/
def DataStorage.SameRows {T : Type} : DataStorage T → DataStorage T → Prop
  | .owned o, .owned o' => o'.source = o.source
  | .indexed x, .indexed x' => x'.parentData = x.parentData ∨ x'.parentData = none
  | _, _ => False

namespace DataStorage

variable {T : Type}

theorem SameRows.refl : ∀ st : DataStorage T, st.SameRows st
  | .owned _ => rfl
  | .indexed _ => .inl rfl

theorem sameRows_pushLevel : ∀ (st : DataStorage T) (indices : List Nat),
    st.SameRows (st.pushLevel indices)
  | .owned o, indices => o.pushLevel_source indices
  | .indexed _, _ => .inl rfl

theorem sameRows_goToLevel : ∀ (st : DataStorage T) (targetLevel : Nat) (trim : Bool),
    st.SameRows (st.goToLevel targetLevel trim)
  | .owned _, _, _ => rfl
  | .indexed _, _, _ => .inl rfl

end DataStorage

namespace FilterData

variable {N : Numerics} {T : Type} {s s' : FilterData N T}

theorem parentData_of_sameRows (h : s.storage.SameRows s'.storage) :
    s'.parentData = s.parentData ∨ s'.parentData = none := by
  unfold parentData
  split <;> split <;> simp_all [DataStorage.SameRows]

theorem owned_of_sameRows (h : s.storage.SameRows s'.storage) {o : OwnedStorage T}
    (ho : s.storage = .owned o) : ∃ o', s'.storage = .owned o' ∧ o'.source = o.source := by
  rw [ho] at h
  cases hst : s'.storage with
  | owned o' => exact ⟨o', rfl, by rwa [hst] at h⟩
  | indexed x' => rw [hst] at h; exact h.elim

/-- `items()` keeps the rows: it writes at most the cache of an `Owned`
view. -/
theorem sameRows_items (s : FilterData N T) : s.storage.SameRows s.items.2.storage := by
  cases hst : s.storage with
  | owned o =>
    rcases items_snd_of_owned hst with h | h <;> rw [h]
    · rw [hst]
      exact rfl
    · exact rfl
  | indexed x =>
    rw [IsIndexed.items_snd ⟨x, hst⟩, hst]
    exact .inl rfl

/-- Creating an index leaves the view, or the view after `items()`. -/
theorem sameRows_of_createIndex
    (h : s' = s ∨ ∃ s₁ : FilterData N T, s₁.storage = s.storage ∧ s'.storage = s₁.items.2.storage) :
    s.storage.SameRows s'.storage := by
  rcases h with rfl | ⟨s₁, h₁, h₂⟩
  · exact .refl _
  · rw [h₂, ← h₁]
    exact sameRows_items s₁

theorem sameRows_goToLevel (s : FilterData N T) (targetLevel : Nat) :
    s.storage.SameRows (s.goToLevel targetLevel).storage := by
  unfold goToLevel
  dsimp only
  by_cases hlt : targetLevel ≥ s.levelInfo.length
  · rw [if_pos hlt]
    exact .refl _
  · rw [if_neg hlt, refreshMask_storage]
    exact DataStorage.sameRows_goToLevel _ _ _

variable (lower : List Char → List Char) (opText : FieldOperation N → String)

/-- No call of the API changes the rows a view reads, but for freeing the
parent of an `Indexed` view. The filtering calls end with a write whose
shape the history fixes (`LevelWrite.eq`). -/
theorem sameRows_step (hw : s.HistoryWf) (hst : Step lower opText s s') :
    s.storage.SameRows s'.storage := by
  obtain ⟨c, hc⟩ := hst
  cases c with
  | filtering call =>
    rcases hc with hc | ⟨e, hc⟩
    · obtain ⟨s₁, hm, hwrite⟩ := call.run_write lower opText hc
      obtain ⟨-, indices, info, mask, rfl⟩ := hwrite.eq (hw.of_same hm.sameHistory)
      rw [hm.storage]
      exact DataStorage.sameRows_pushLevel _ indices
    · rw [(call.run_err lower opText hc).storage]
      exact .refl _
  | goToLevel targetLevel =>
    rw [Outcome.eq_of_ok hc]
    exact sameRows_goToLevel s targetLevel
  | up =>
    rw [Outcome.eq_of_ok hc]
    unfold up
    split_ifs
    · exact sameRows_goToLevel s _
    · exact .refl _
  | resetToSource =>
    rw [Outcome.eq_of_ok hc]
    unfold resetToSource
    split <;> rename_i hst <;> rw [hst]
    · exact rfl
    · exact .inl rfl
  | createFieldIndex name ty extractor => exact sameRows_of_createIndex (createFieldIndex_storage hc)
  | createTextIndex name extractor => exact sameRows_of_createIndex (createTextIndex_storage hc)
  | dropIndex name => rw [Outcome.eq_of_ok hc]; exact .refl _
  | clearFiledIndex => rw [Outcome.eq_of_ok hc]; exact .refl _
  | clearTextIndexes => rw [Outcome.eq_of_ok hc]; exact .refl _
  | clearAllIndexes => rw [Outcome.eq_of_ok hc]; exact .refl _
  | items => rw [Outcome.eq_of_ok hc]; exact sameRows_items s
  | releaseParent =>
    rw [Outcome.eq_of_ok hc]
    unfold releaseParent
    split <;> rename_i hst <;> rw [hst]
    · exact rfl
    · exact .inr rfl

end FilterData

namespace Groups

open FilterData

variable {K : Type} [LinearOrder K] {N : Numerics} {T : Type}
variable (lower : List Char → List Char) (opText : FieldOperation N → String)

/-! ### Each group follows calls of the API -/

/-- Every group of `h` is at its address in `h'`, with data that calls of
the `FilterData` API reach from its data in `h`. -/
def Follows (h h' : Groups K N T) : Prop :=
  ∀ b g, h.node? b = some g →
    ∃ g', h'.node? b = some g' ∧ Relation.ReflTransGen (TreeMan.Step lower opText) g.data g'.data

section Follows

variable {h h' h'' : Groups K N T}

theorem Follows.refl (h : Groups K N T) : Follows lower opText h h :=
  fun _ g hg => ⟨g, hg, .refl⟩

theorem Follows.trans (h₁ : Follows lower opText h h') (h₂ : Follows lower opText h' h'') :
    Follows lower opText h h'' := by
  intro b g hg
  obtain ⟨g', hg', hrun⟩ := h₁ b g hg
  obtain ⟨g'', hg'', hrun'⟩ := h₂ b g' hg'
  exact ⟨g'', hg'', hrun.trans hrun'⟩

theorem Follows.foldl {α : Type} {F : Groups K N T → α → Groups K N T}
    (hF : ∀ h x, Follows lower opText h (F h x)) (l : List α) (h : Groups K N T) :
    Follows lower opText h (l.foldl F h) := by
  induction l generalizing h with
  | nil => exact Follows.refl lower opText h
  | cons x l ih => exact (hF h x).trans lower opText (ih (F h x))

theorem Follows.of_sameData (hs : SameData h h') : Follows lower opText h h' := by
  intro b g hg
  have hb := hs b
  rw [hg, Option.map_some] at hb
  obtain ⟨g', hg', hd⟩ := Option.map_eq_some_iff.mp hb
  exact ⟨g', hg', hd ▸ .refl⟩

theorem follows_modify {a : Nat} {f : GroupData K N T → GroupData K N T}
    (hf : ∀ g, h.node? a = some g → Relation.ReflTransGen (TreeMan.Step lower opText) g.data (f g).data) :
    Follows lower opText h (h.modify a f) := by
  intro b g hg
  rw [node?_modify]
  split_ifs with hab
  · subst hab
    exact ⟨f g, by rw [hg]; rfl, hf g hg⟩
  · exact ⟨g, hg, .refl⟩

/-- The cleaning of navigation: `reset_to_source`, then `clear_all_indexes`. -/
theorem reflTransGen_clean (d : FilterData N T) :
    Relation.ReflTransGen (TreeMan.Step lower opText) d d.resetToSource.clearAllIndexes :=
  .tail (.single ⟨.resetToSource, .inl rfl⟩) ⟨.clearAllIndexes, .inl rfl⟩

theorem follows_cleanPath (h : Groups K N T) (path : List Nat) :
    Follows lower opText h (h.cleanPath path) :=
  Follows.foldl lower opText (fun h a =>
    (Follows.of_sameData lower opText (sameData_clearSubgroupsFrom _ h a)).trans lower opText
      (follows_modify lower opText fun g _ => reflTransGen_clean lower opText g.data)) path h

theorem follows_goToParent (h : Groups K N T) (a : Nat) : Follows lower opText h (h.goToParent a).1 := by
  unfold goToParent
  split
  · exact Follows.refl lower opText h
  · exact follows_cleanPath lower opText h _

theorem follows_goToParentCurrent (h : Groups K N T) (a : Nat) (key : K) :
    Follows lower opText h (h.goToParentCurrent a key).1 := by
  unfold goToParentCurrent
  split
  · exact Follows.refl lower opText h
  · exact follows_cleanPath lower opText h _

/-- A call on a group's data whose every outcome the API reaches. -/
theorem follows_dataCall {a : Nat} {f : FilterData N T → Outcome (FilterData N T)}
    (hf : ∀ d d', (f d = .ok d' ∨ ∃ e, f d = .err e d') →
      Relation.ReflTransGen (TreeMan.Step lower opText) d d')
    (hc : h.dataCall a f = .ok h' ∨ ∃ e, h.dataCall a f = .err e h') : Follows lower opText h h' := by
  unfold dataCall at hc
  split at hc
  · rcases hc with hc | ⟨e, hc⟩ <;> cases hc
    exact Follows.refl lower opText h
  · rename_i g hg
    split at hc
    · rename_i d' hd'
      rcases hc with hc | ⟨e, hc⟩ <;> cases hc
      exact follows_modify lower opText fun g₁ hg₁ => by
        rw [hg, Option.some.injEq] at hg₁
        subst hg₁
        exact hf _ _ (.inl hd')
    · rename_i e d' hd'
      rcases hc with hc | ⟨e, hc⟩ <;> cases hc
      exact follows_modify lower opText fun g₁ hg₁ => by
        rw [hg, Option.some.injEq] at hg₁
        subst hg₁
        exact hf _ _ (.inr ⟨e, hd'⟩)
    · rcases hc with hc | ⟨e, hc⟩ <;> cases hc

/-- Grouping writes the map of the group grouped and appends the new ones:
no group's data changes. -/
theorem follows_groupByWithIndexes {a : Nat} {split : Split Nat} {extractor : T → K}
    {description : String} {creator : IndexCreator lower opText T}
    (hc : h.groupByWithIndexes lower opText a split extractor description creator = .ok h' ∨
      ∃ e, h.groupByWithIndexes lower opText a split extractor description creator = .err e h') :
    Follows lower opText h h' := by
  rcases hc with hc | ⟨e, hc⟩
  · unfold groupByWithIndexes at hc
    split at hc
    · cases hc
      exact Follows.refl lower opText h
    · split at hc
      · cases hc
      · dsimp only at hc
        split at hc
        · split at hc
          · cases hc
          · cases hc
            intro b gb hb
            refine ⟨_, node?_attach_of_old hb, ?_⟩
            split_ifs <;> exact .refl
        · cases hc
  · rw [groupByWithIndexes_err lower opText hc]
    exact Follows.refl lower opText h

/-- A new group of a grouping: `from_indices` over the rows the grouped
group reads, then the calls of the index creator. -/
theorem new_groupByWithIndexes {a : Nat} {split : Split Nat} {extractor : T → K}
    {description : String} {creator : IndexCreator lower opText T}
    (hc : h.groupByWithIndexes lower opText a split extractor description creator = .ok h')
    {b : Nat} {g' : GroupData K N T} (hb : h'.node? b = some g') (hnone : h.node? b = none) :
    ∃ a g parent indices, h.node? a = some g ∧ g.data.parentData = some parent ∧
      Relation.ReflTransGen (TreeMan.Step lower opText) (fromIndices parent indices) g'.data := by
  unfold groupByWithIndexes at hc
  split at hc
  · cases hc
    rw [hnone] at hb
    cases hb
  · rename_i g hg
    split at hc
    · cases hc
    · rename_i parent hparent
      dsimp only at hc
      split at hc
      · split at hc
        · cases hc
        · rename_i children hchildren
          cases hc
          rcases node?_attach_cases hb with ⟨gb, hgb, -⟩ | ⟨-, hnew⟩
          · rw [hnone] at hgb
            cases hgb
          · obtain ⟨p, hp, rfl⟩ := List.mem_map.mp (List.mem_of_getElem? hnew)
            obtain ⟨q, -, hrun⟩ := makeChildren_mem lower opText hchildren p hp
            exact ⟨a, g, parent, _, hg, hparent, creator.calls _ _ hrun⟩
      · cases hc

end Follows

/-- One group call, seen from the data of the groups: each group keeps its
address and follows calls of the API; each new group starts as
`from_indices` over the rows a group already there reads. -/
structure DataRuns (h h' : Groups K N T) : Prop where
  old : Follows lower opText h h'
  new : ∀ b g', h'.node? b = some g' → h.node? b = none →
    ∃ a g parent indices, h.node? a = some g ∧ g.data.parentData = some parent ∧
      Relation.ReflTransGen (TreeMan.Step lower opText) (fromIndices parent indices) g'.data

section Runs

variable {h h' : Groups K N T}

/-- A call that adds no group. -/
theorem DataRuns.of_shrinks (hf : Follows lower opText h h') (hs : Shrinks h h') :
    DataRuns lower opText h h' where
  old := hf
  new b _ hb hnone := by
    obtain ⟨g, hg⟩ := exists_node?_of_lt (hs.length ▸ lt_length_of_node? hb)
    rw [hnone] at hg
    cases hg

/-- A call on a group's data whose every outcome the API reaches. -/
theorem DataRuns.of_dataCall {a : Nat} {f : FilterData N T → Outcome (FilterData N T)}
    (hf : ∀ d d', (f d = .ok d' ∨ ∃ e, f d = .err e d') →
      Relation.ReflTransGen (TreeMan.Step lower opText) d d')
    (hc : h.dataCall a f = .ok h' ∨ ∃ e, h.dataCall a f = .err e h') : DataRuns lower opText h h' :=
  .of_shrinks lower opText (follows_dataCall lower opText hf hc) (shrinks_dataCall h hc)

/-- A change of a group's data that is one call of the API. -/
theorem DataRuns.of_updateData (a : Nat) {f : FilterData N T → FilterData N T}
    (hf : ∀ d, TreeMan.Step lower opText d (f d)) : DataRuns lower opText h (h.updateData a f) :=
  .of_shrinks lower opText (follows_modify lower opText fun g _ => .single (hf g.data))
    (shrinks_updateData h a f)

/-- Every group call moves the data of each group by calls of the API: a
successful filtering call is the call, then `items()`; a failure is the
call alone. -/
theorem Step.dataRuns (hst : Step lower opText h h') : DataRuns lower opText h h' := by
  obtain ⟨a, c, hc⟩ := hst
  cases c with
  | groupByWithIndexes split extractor description creator =>
    refine ⟨follows_groupByWithIndexes lower opText hc, fun b g' hb hnone => ?_⟩
    rcases hc with hc | ⟨e, hc⟩
    · exact new_groupByWithIndexes lower opText hc hb hnone
    · rw [groupByWithIndexes_err lower opText hc, hnone] at hb
      cases hb
  | filtering call =>
    dsimp only [GroupCall.run, filtering] at hc
    refine .of_dataCall lower opText (fun d d' hd => ?_) hc
    rcases hd with hd | ⟨e, hd⟩ <;> split at hd
    · rename_i s hs
      cases hd
      exact .tail (.single ⟨.filtering call, .inl hs⟩) ⟨.items, .inl rfl⟩
    · cases hd
    · cases hd
    · cases hd
    · rename_i s hs
      cases hd
      exact .single ⟨.filtering call, .inr ⟨_, hs⟩⟩
    · cases hd
  | createFieldIndex name ty extractor =>
    dsimp only [GroupCall.run] at hc
    exact .of_dataCall lower opText (fun _ _ hd => .single ⟨.createFieldIndex name ty extractor, hd⟩) hc
  | createTextIndex name extractor =>
    dsimp only [GroupCall.run] at hc
    exact .of_dataCall lower opText (fun _ _ hd => .single ⟨.createTextIndex name extractor, hd⟩) hc
  | resetFilters =>
    rw [Outcome.eq_of_ok hc]
    exact .of_updateData lower opText (f := FilterData.resetToSource) a fun _ => ⟨.resetToSource, .inl rfl⟩
  | clearAllIndexes =>
    rw [Outcome.eq_of_ok hc]
    exact .of_updateData lower opText a fun _ => ⟨.clearAllIndexes, .inl rfl⟩
  | clearFieldIndexes =>
    rw [Outcome.eq_of_ok hc]
    exact .of_updateData lower opText a fun _ => ⟨.clearFiledIndex, .inl rfl⟩
  | clearTextIndexes =>
    rw [Outcome.eq_of_ok hc]
    exact .of_updateData lower opText a fun _ => ⟨.clearTextIndexes, .inl rfl⟩
  | clearSubgroups =>
    rw [Outcome.eq_of_ok hc]
    exact .of_shrinks lower opText (Follows.of_sameData lower opText (sameData_clearSubgroupsFrom _ h a))
      (shrinks_clearSubgroupsFrom _ h a)
  | goToParent =>
    rw [Outcome.eq_of_ok hc]
    exact .of_shrinks lower opText (follows_goToParent lower opText h a) (shrinks_goToParent h a)
  | goToParentCurrent key =>
    rw [Outcome.eq_of_ok hc]
    exact .of_shrinks lower opText (follows_goToParentCurrent lower opText h a key)
      (shrinks_goToParentCurrent h a key)
  | goToRoot =>
    rw [Outcome.eq_of_ok hc]
    exact .of_shrinks lower opText (follows_cleanPath lower opText h _) (shrinks_goToRoot h a)

/-- A property of data that every call of the API keeps, and that
`from_indices` gives over the rows of a group that has it, holds of every
group after every group call. -/
theorem AllData.of_dataRuns {P : FilterData N T → Prop}
    (hclosed : ∀ s s', P s → TreeMan.Step lower opText s s' → P s')
    (hfrom : ∀ d parent indices, P d → d.parentData = some parent → P (fromIndices parent indices))
    (hP : AllData P h) (hd : DataRuns lower opText h h') : AllData P h' := by
  intro b g' hg'
  cases hb : h.node? b with
  | some g =>
    obtain ⟨g'', hg'', hrun⟩ := hd.old b g hb
    rw [hg'] at hg''
    cases hg''
    exact Transition.keeps_of_reflTransGen hclosed hrun (hP b g hb)
  | none =>
    obtain ⟨a, g, parent, indices, hg, hparent, hrun⟩ := hd.new b g' hg' hb
    exact Transition.keeps_of_reflTransGen hclosed hrun (hfrom _ parent indices (hP a g hg) hparent)

end Runs

/-! ### Over every run -/

section Reachable

variable {h : Groups K N T}

/-- On every heap a run of group calls reaches from `new_root`, the data of
every group is a state that a run of calls on a `FilterData` reaches from
`from_vec` or `from_indices`. -/
theorem group_data_reachable (hr : Reachable lower opText h) :
    AllData (FilterData.Reachable lower opText) h := by
  refine Transition.Reachable.invariant (fun s hs => ?_)
    (fun s s' (hs : AllData (FilterData.Reachable lower opText) s) hst =>
      hs.of_dataRuns lower opText (fun _ _ hd hst => .step hd hst)
        (fun _ parent indices _ _ => .init (.inr ⟨parent, indices, rfl⟩)) (hst.dataRuns lower opText)) hr
  obtain ⟨key, data, description, rfl⟩ := hs
  exact allData_newRoot (.init (.inl ⟨data, rfl⟩))

theorem group_data_reachable_groupedTwo :
    Reachable id (fun _ => "") groupedTwo ∧
      AllData (FilterData.Reachable id (fun _ => "")) groupedTwo :=
  ⟨reachable_groupedTwo, group_data_reachable id (fun _ => "") reachable_groupedTwo⟩

/-- The rows a view reads, if not freed, are `rows`; and the view is one a
run of calls reaches. -/
def ReadsRows (rows : List T) (d : FilterData N T) : Prop :=
  d.Reachable lower opText ∧ (d.parentData = some rows ∨ d.parentData = none)

/-- The root's data is an `Owned` view, whose rows every group reads. -/
def RootRows (h : Groups K N T) : Prop :=
  ∃ g₀ o, h.node? 0 = some g₀ ∧ g₀.data.storage = .owned o ∧ AllData (ReadsRows lower opText o.source) h

theorem ReadsRows.step {rows : List T} {s s' : FilterData N T} (hs : ReadsRows lower opText rows s)
    (hst : TreeMan.Step lower opText s s') : ReadsRows lower opText rows s' := by
  refine ⟨.step hs.1 hst, ?_⟩
  rcases parentData_of_sameRows (sameRows_step lower opText (historyWf_of_reachable lower opText hs.1) hst)
    with h | h
  · rw [h]
    exact hs.2
  · exact .inr h

theorem readsRows_fromIndices {rows parent : List T} {d : FilterData N T} (indices : List Nat)
    (hd : ReadsRows lower opText rows d) (hparent : d.parentData = some parent) :
    ReadsRows lower opText rows (fromIndices parent indices) := by
  rcases hd.2 with h | h <;> rw [hparent] at h
  · cases h
    exact ⟨.init (.inr ⟨_, indices, rfl⟩), .inl rfl⟩
  · cases h

/-- A group call keeps the root's rows: the root's data follows calls of the
API, which keep it `Owned` over its source. -/
theorem RootRows.step {h h' : Groups K N T} (hroot : RootRows lower opText h)
    (hst : Step lower opText h h') : RootRows lower opText h' := by
  obtain ⟨g₀, o, hg₀, ho, hall⟩ := hroot
  have hd := hst.dataRuns lower opText
  obtain ⟨g₀', hg₀', hrun⟩ := hd.old 0 g₀ hg₀
  obtain ⟨-, o', ho', hsrc⟩ := Transition.keeps_of_reflTransGen
    (I := fun d => d.Reachable lower opText ∧ ∃ o', d.storage = .owned o' ∧ o'.source = o.source)
    (fun s s' ⟨hr, o₁, ho₁, hsrc₁⟩ hst =>
      have ⟨o₂, ho₂, hsrc₂⟩ := owned_of_sameRows
        (sameRows_step lower opText (historyWf_of_reachable lower opText hr) hst) ho₁
      ⟨.step hr hst, o₂, ho₂, hsrc₂.trans hsrc₁⟩)
    hrun ⟨(hall 0 g₀ hg₀).1, o, ho, rfl⟩
  refine ⟨g₀', o', hg₀', ho', ?_⟩
  rw [hsrc]
  exact hall.of_dataRuns lower opText (fun _ _ hs hst => hs.step lower opText hst)
    (fun _ _ indices hd hparent => readsRows_fromIndices lower opText indices hd hparent) hd

theorem rootRows_of_reachable (hr : Reachable lower opText h) : RootRows lower opText h := by
  refine Transition.Reachable.invariant (fun s hs => ?_)
    (fun s s' (hs : RootRows lower opText s) hst => hs.step lower opText hst) hr
  obtain ⟨key, data, description, rfl⟩ := hs
  exact ⟨_, _, rfl, rfl, allData_newRoot ⟨.init (.inl ⟨data, rfl⟩), .inl rfl⟩⟩

/-- On every heap a run of group calls reaches from `new_root`, the root's
data is an `Owned` view, and every group reads the root's source rows: its
`items()` are the root's rows at its current positions, unless the parent
rows of its view have been freed. -/
theorem groups_read_root_rows (hr : Reachable lower opText h) :
    ∃ g₀ o, h.node? 0 = some g₀ ∧ g₀.data.storage = .owned o ∧
      ∀ b g, h.node? b = some g →
        (g.data.parentData = some o.source ∧
          g.data.items.1 = OwnedStorage.rowsAt o.source g.data.currentIndices) ∨
        g.data.parentData = none := by
  obtain ⟨g₀, o, hg₀, ho, hall⟩ := rootRows_of_reachable lower opText hr
  have hcache := cacheAgrees_of_reachable lower opText hr
  refine ⟨g₀, o, hg₀, ho, fun b g hg => ?_⟩
  rcases (hall b g hg).2 with hp | hp
  · exact .inl ⟨hp, (hcache b g hg).items_fst hp⟩
  · exact .inr hp

theorem groups_read_root_rows_groupedTwo :
    Reachable id (fun _ => "") groupedTwo ∧
      ∃ g₀ o, groupedTwo.node? 0 = some g₀ ∧ g₀.data.storage = .owned o ∧
        ∀ b g, groupedTwo.node? b = some g →
          (g.data.parentData = some o.source ∧
            g.data.items.1 = OwnedStorage.rowsAt o.source g.data.currentIndices) ∨
          g.data.parentData = none :=
  ⟨reachable_groupedTwo, groups_read_root_rows id (fun _ => "") reachable_groupedTwo⟩

end Reachable

end Groups

end TreeMan
