import Mathlib
import TreeMan.Proof.LevelChain

/-!
# What `FilterDataBuilder::build` returns

`build` makes a `from_vec` view and applies each index definition to it, as
`create_field_index` or `create_text_index`. An applier fails only when an
index of its name already exists with another type (`apply_err`); otherwise
it drops that index and inserts its own, leaving the view and every other
index as they were (`apply_ok`).

So `build` returns a view (`build_ok`) only when no two definitions of one
name ask for different types. The view is reached by calls, so every
invariant over runs holds of it. Every row is current at the first level,
there is no mask, and there is exactly one index per defined name, of the
defined type. It returns an error (`build_error`) only for a name defined
with two types, and the error names the name and both types.
-/

namespace TreeMan

namespace IndexDefinition

variable {N : Numerics} {T : Type} (lower : List Char → List Char)

/-- The call an index definition makes. -/
def toCall : IndexDefinition N T → Call N T
  | .field name ty extractor => .createFieldIndex name ty extractor
  | .text name extractor => .createTextIndex name extractor

theorem run_toCall (opText : FieldOperation N → String) (s : FilterData N T)
    (d : IndexDefinition N T) : d.toCall.run lower opText s = d.apply lower s := by
  cases d <;> rfl

end IndexDefinition

namespace FilterData

variable {N : Numerics} {T : Type} {s s₁ s' : FilterData N T} {name : String}
  {expectedType : String} {e : GLobalError}

/-! ### One applier -/

theorem replaceIndex_ok (h : s.replaceIndex name expectedType = .ok s₁) :
    (s₁ = s ∨ s₁ = s.dropIndex name) ∧
      ∀ index, s.indexes name = some index → index.indexType = expectedType := by
  unfold replaceIndex checkIndexTypeCompability at h
  split_ifs at h with hhas
  · split at h
    · cases h
    · rename_i hcheck
      cases h
      refine ⟨.inr rfl, fun index hidx => ?_⟩
      rw [hidx] at hcheck
      dsimp only at hcheck
      split_ifs at hcheck with hne
      exact (not_not.mp hne).symm
  · cases h
    refine ⟨.inl rfl, fun index hidx => ?_⟩
    simp [hasIndex, hidx] at hhas

/-- The only error of the head of both index creations: an index of the
name with another type. -/
theorem replaceIndex_error (h : s.replaceIndex name expectedType = .error e) :
    ∃ index, s.indexes name = some index ∧ index.indexType ≠ expectedType ∧
      e = .index (.replace name index.indexType expectedType) := by
  unfold replaceIndex checkIndexTypeCompability at h
  split_ifs at h with hhas
  split at h
  · rename_i err hcheck
    cases h
    cases hidx : s.indexes name with
    | none => simp [hasIndex, hidx] at hhas
    | some index =>
      rw [hidx] at hcheck
      dsimp only at hcheck
      split_ifs at hcheck with hne
      cases hcheck
      exact ⟨index, rfl, Ne.symm hne, rfl⟩
  · cases h

theorem items_snd_indexes (s : FilterData N T) : s.items.2.indexes = s.indexes := by
  unfold items
  split
  · split
    · rfl
    · dsimp only
      split_ifs <;> rfl
  · split <;> rfl

theorem items_snd_mask (s : FilterData N T) :
    s.items.2.sourceIndicesMask = s.sourceIndicesMask := by
  unfold items
  split
  · split
    · rfl
    · dsimp only
      split_ifs <;> rfl
  · split <;> rfl

end FilterData

namespace IndexDefinition

variable {N : Numerics} {T : Type} (lower : List Char → List Char) {s s' : FilterData N T}
  {d : IndexDefinition N T} {e : GLobalError}

/-- A successful applier: the old index of the name was of the type, and
the new one is inserted into the view after `items()`. -/
theorem apply_ok_cases (h : d.apply lower s = .ok s') :
    ∃ s₁ index, s.replaceIndex d.name d.indexType = .ok s₁ ∧ index.indexType = d.indexType ∧
      s' = s₁.items.2.insertIndex d.name index := by
  cases d with
  | field name ty extractor =>
    rw [apply] at h
    unfold FilterData.createFieldIndex at h
    split at h
    · cases h
    · rename_i s₁ hs₁
      cases h
      exact ⟨s₁, _, hs₁, rfl, rfl⟩
  | text name extractor =>
    rw [apply] at h
    unfold FilterData.createTextIndex at h
    split at h
    · cases h
    · rename_i s₁ hs₁
      dsimp only at h
      split at h
      · cases h
        exact ⟨s₁, _, hs₁, rfl, rfl⟩
      · cases h

theorem apply_err_cases (h : d.apply lower s = .err e s') :
    s.replaceIndex d.name d.indexType = .error e := by
  cases d with
  | field name ty extractor =>
    rw [apply] at h
    unfold FilterData.createFieldIndex at h
    split at h
    · rename_i err herr
      cases h
      exact herr
    · cases h
  | text name extractor =>
    rw [apply] at h
    unfold FilterData.createTextIndex at h
    split at h
    · rename_i err herr
      cases h
      exact herr
    · dsimp only at h
      split at h <;> cases h

/-- An applier that succeeds keeps the view and every index of another
name, and leaves an index of its type under its name. -/
theorem apply_ok (h : d.apply lower s = .ok s') :
    s.SameHistory s' ∧ s'.sourceIndicesMask = s.sourceIndicesMask ∧
      (∀ n, n ≠ d.name → s'.indexes n = s.indexes n) ∧
      (s'.indexes d.name).map IndexType.indexType = some d.indexType ∧
      ∀ index, s.indexes d.name = some index → index.indexType = d.indexType := by
  obtain ⟨s₁, index, hs₁, htype, rfl⟩ := apply_ok_cases lower h
  obtain ⟨hsame, hold⟩ := FilterData.replaceIndex_ok hs₁
  have hhist : s.SameHistory (s₁.items.2.insertIndex d.name index) :=
    ((FilterData.sameHistory_replaceIndex hs₁).trans (FilterData.sameHistory_items s₁)).trans
      (FilterData.sameHistory_of_storage rfl rfl rfl)
  refine ⟨hhist, ?_, fun n hn => ?_, ?_, hold⟩
  · simp only [FilterData.insertIndex, FilterData.items_snd_mask]
    rcases hsame with rfl | rfl <;> rfl
  · simp only [FilterData.insertIndex, FilterData.items_snd_indexes, Function.update_apply,
      if_neg hn]
    rcases hsame with rfl | rfl
    · rfl
    · simp [FilterData.dropIndex, hn]
  · simp [FilterData.insertIndex, htype]

theorem apply_err (h : d.apply lower s = .err e s') :
    ∃ index, s.indexes d.name = some index ∧ index.indexType ≠ d.indexType ∧
      e = .index (.replace d.name index.indexType d.indexType) :=
  FilterData.replaceIndex_error (apply_err_cases lower h)

end IndexDefinition

/-! ### The loop of `build` -/

namespace FilterData

variable {N : Numerics} {T : Type} (lower : List Char → List Char)

/-- What the appliers of `defs` leave when they all succeed from `s`: the
view of `s`; the indexes of the names no definition names; under each
defined name an index of the defined type; and definitions that agree with
each other, and with the indexes of `s`, on the type of each name. -/
structure Applied (defs : List (IndexDefinition N T)) (s s' : FilterData N T) : Prop where
  sameHistory : s.SameHistory s'
  mask : s'.sourceIndicesMask = s.sourceIndicesMask
  indexes_of_forall_ne : ∀ n, (∀ d ∈ defs, d.name ≠ n) → s'.indexes n = s.indexes n
  indexType : ∀ d ∈ defs, (s'.indexes d.name).map IndexType.indexType = some d.indexType
  indexType_old : ∀ d ∈ defs, ∀ index, s.indexes d.name = some index →
    index.indexType = d.indexType
  consistent : defs.Pairwise fun d₁ d₂ => d₁.name = d₂.name → d₁.indexType = d₂.indexType

theorem applied_nil (s : FilterData N T) : Applied [] s s :=
  ⟨⟨rfl, rfl, rfl, rfl, rfl⟩, rfl, fun _ _ => rfl, (fun _ h => by cases h), (fun _ h => by cases h),
    .nil⟩

/-- One more applier in front: a later definition of the same name finds
the index this one inserted, so it asks for the same type, and the last
definition of a name decides the index under it. -/
theorem Applied.cons {d : IndexDefinition N T} {rest : List (IndexDefinition N T)}
    {s s₁ s' : FilterData N T} (h₁ : d.apply lower s = .ok s₁) (h : Applied rest s₁ s') :
    Applied (d :: rest) s s' := by
  obtain ⟨hhist, hmask, hother, htype, hold⟩ := d.apply_ok lower h₁
  have hsame : ∀ d' ∈ rest, d'.name = d.name → d'.indexType = d.indexType := by
    intro d' hd' hname
    obtain ⟨index, hidx, hindex⟩ := Option.map_eq_some_iff.mp htype
    rw [← hindex]
    exact (h.indexType_old d' hd' index (hname ▸ hidx)).symm
  refine ⟨hhist.trans h.sameHistory, h.mask.trans hmask, fun n hn => ?_, ?_, ?_, ?_⟩
  · rw [h.indexes_of_forall_ne n fun d' hd' => hn d' (List.mem_cons_of_mem _ hd')]
    exact hother n (hn d List.mem_cons_self).symm
  · intro d' hd'
    rcases List.mem_cons.mp hd' with rfl | hd'
    · by_cases hlater : ∃ d'' ∈ rest, d''.name = d'.name
      · obtain ⟨d'', hd'', hname⟩ := hlater
        rw [← hname, h.indexType d'' hd'', hsame d'' hd'' hname]
      · push Not at hlater
        rw [h.indexes_of_forall_ne _ hlater]
        exact htype
    · exact h.indexType d' hd'
  · intro d' hd' index hidx
    rcases List.mem_cons.mp hd' with rfl | hd'
    · exact hold index hidx
    · by_cases hname : d'.name = d.name
      · rw [hname] at hidx
        rw [hold index hidx, hsame d' hd' hname]
      · exact h.indexType_old d' hd' index (by rw [hother _ hname]; exact hidx)
  · exact List.Pairwise.cons (fun d' hd' hname => (hsame d' hd' hname.symm).symm) h.consistent

theorem applied_of_applyIndexDefinitions :
    ∀ {s s' : FilterData N T} {defs : List (IndexDefinition N T)},
      applyIndexDefinitions lower s defs = some (.ok s') → Applied defs s s'
  | s, s', [], h => by
    cases h
    exact applied_nil s
  | s, s', d :: rest, h => by
    rw [applyIndexDefinitions] at h
    split at h
    · rename_i s₁ h₁
      exact (applied_of_applyIndexDefinitions h).cons lower h₁
    · cases h
    · cases h

/-- The loop ends in a view reached by calls from its start. -/
theorem reachable_of_applyIndexDefinitions (opText : FieldOperation N → String) :
    ∀ {s s' : FilterData N T} {defs : List (IndexDefinition N T)},
      applyIndexDefinitions lower s defs = some (.ok s') → s.Reachable lower opText →
      s'.Reachable lower opText
  | s, s', [], h, hr => by
    cases h
    exact hr
  | s, s', d :: rest, h, hr => by
    rw [applyIndexDefinitions] at h
    split at h
    · rename_i s₁ h₁
      exact reachable_of_applyIndexDefinitions opText h
        (.step hr ⟨d.toCall, .inl ((d.run_toCall lower opText s).trans h₁)⟩)
    · cases h
    · cases h

/-- The error of the loop is that of the first definition whose name has an
index of another type: one of `s`, or one an earlier definition inserted. -/
theorem error_of_applyIndexDefinitions :
    ∀ {s : FilterData N T} {defs : List (IndexDefinition N T)} {e : GLobalError},
      applyIndexDefinitions lower s defs = some (.error e) →
      ∃ pre d₂ post t, defs = pre ++ d₂ :: post ∧ t ≠ d₂.indexType ∧
        e = .index (.replace d₂.name t d₂.indexType) ∧
        ((s.indexes d₂.name).map IndexType.indexType = some t ∨
          ∃ d₁ ∈ pre, d₁.name = d₂.name ∧ d₁.indexType = t)
  | s, [], e, h => by cases h
  | s, d :: rest, e, h => by
    rw [applyIndexDefinitions] at h
    split at h
    · rename_i s₁ h₁
      obtain ⟨pre, d₂, post, t, rfl, hne, he, hwhere⟩ := error_of_applyIndexDefinitions h
      refine ⟨d :: pre, d₂, post, t, rfl, hne, he, ?_⟩
      obtain ⟨-, -, hother, htype, -⟩ := d.apply_ok lower h₁
      rcases hwhere with hwhere | ⟨d₁, hd₁, hname, ht⟩
      · by_cases hname : d₂.name = d.name
        · rw [hname, htype, Option.some.injEq] at hwhere
          exact .inr ⟨d, List.mem_cons_self, hname.symm, hwhere⟩
        · rw [hother _ hname] at hwhere
          exact .inl hwhere
      · exact .inr ⟨d₁, List.mem_cons_of_mem _ hd₁, hname, ht⟩
    · rename_i e' s₁ h₁
      cases h
      obtain ⟨index, hidx, hne, he⟩ := d.apply_err lower h₁
      exact ⟨[], d, rest, index.indexType, rfl, hne, he, .inl (by rw [hidx]; rfl)⟩
    · cases h

end FilterData

/-! ### `build` -/

namespace FilterDataBuilder

variable {N : Numerics} {T : Type} (lower : List Char → List Char)
  (opText : FieldOperation N → String)

/-- A view `build` returns is reached by calls, so every invariant over runs
holds of it. Every row of the data is current, at the first level, named
`"Source"`, with no mask. Under every defined name there is an index of the
defined type, and no other index. No two definitions of one name ask for
different types. -/
theorem build_ok {b : FilterDataBuilder N T} {s : FilterData N T}
    (h : b.build lower = some (.ok s)) :
    s.Reachable lower opText ∧
      (∃ data, b.data = some data ∧ s.currentIndices = List.range data.length) ∧
      s.currentLevel = 0 ∧ s.levelInfo = ["Source"] ∧ s.sourceIndicesMask = none ∧
      (∀ d ∈ b.indexes, (s.indexes d.name).map IndexType.indexType = some d.indexType) ∧
      (∀ name, (∀ d ∈ b.indexes, d.name ≠ name) → s.indexes name = none) ∧
      b.indexes.Pairwise fun d₁ d₂ => d₁.name = d₂.name → d₁.indexType = d₂.indexType := by
  unfold build at h
  split at h
  · cases h
  · rename_i data hdata
    have happ := FilterData.applied_of_applyIndexDefinitions lower h
    refine ⟨FilterData.reachable_of_applyIndexDefinitions lower opText h (.init (.inl ⟨data, rfl⟩)),
      ⟨data, hdata, happ.sameHistory.currentIndices⟩, happ.sameHistory.currentLevel,
      happ.sameHistory.levelInfo, happ.mask, happ.indexType, fun name hname => ?_, happ.consistent⟩
    rw [happ.indexes_of_forall_ne name hname]
    rfl

/-- Two rows, a Boolean field index. -/
theorem build_ok_bool_field :
    (((FilterDataBuilder.new.withData [1, 2]).withFieldIndex "k" .bool fun x => decide (x = 1) :
        FilterDataBuilder Numerics.exactRat Nat).build id) =
      some (.ok (((FilterData.fromVec [1, 2]).createFieldIndex "k" .bool
        fun x => decide (x = 1)).ok?.getD (FilterData.fromVec [1, 2]))) ∧
      (((FilterData.fromVec [1, 2] : FilterData Numerics.exactRat Nat).createFieldIndex "k" .bool
        fun x => decide (x = 1)).ok?.getD (FilterData.fromVec [1, 2])).currentIndices = [0, 1] := by
  have h := build_ok (N := Numerics.exactRat) id (fun _ => "")
    (b := (FilterDataBuilder.new.withData [1, 2]).withFieldIndex "k" .bool fun x => decide (x = 1))
    (s := ((FilterData.fromVec [1, 2]).createFieldIndex "k" .bool
      fun x => decide (x = 1)).ok?.getD (FilterData.fromVec [1, 2])) rfl
  obtain ⟨-, ⟨data, hdata, hcur⟩, -⟩ := h
  cases hdata
  exact ⟨rfl, hcur⟩

/-- `build` fails with an error only for a name defined twice with two index
types: the error of `create_field_index` or `create_text_index` for the
later definition names the name, the type an earlier definition gave it and
the type the later one asks for. A fresh view has no index, so the type the
name had came from an earlier definition. -/
theorem build_error {b : FilterDataBuilder N T} {e : GLobalError}
    (h : b.build lower = some (.error e)) :
    ∃ d₁ d₂, [d₁, d₂].Sublist b.indexes ∧ d₁.name = d₂.name ∧ d₁.indexType ≠ d₂.indexType ∧
      e = .index (.replace d₂.name d₁.indexType d₂.indexType) := by
  unfold build at h
  split at h
  · cases h
  · obtain ⟨pre, d₂, post, t, hdefs, hne, he, hwhere⟩ :=
      FilterData.error_of_applyIndexDefinitions lower h
    rcases hwhere with hwhere | ⟨d₁, hd₁, hname, rfl⟩
    · cases hwhere
    · refine ⟨d₁, d₂, ?_, hname, hne, he⟩
      rw [hdefs]
      exact List.Sublist.append (List.singleton_sublist.mpr hd₁)
        (List.cons_sublist_cons.mpr (List.nil_sublist post))

/-- A field index and a text index of one name. -/
theorem build_error_field_then_text :
    (((FilterDataBuilder.new.withData [1, 2]).withFieldIndex "k" .bool
        fun x => decide (x = 1)).withTextIndex "k" (fun _ => ['a']) :
          FilterDataBuilder Numerics.exactRat Nat).build id =
      some (.error (.index (.replace "k" indexField indexText))) ∧
      ∃ d₁ d₂, [d₁, d₂].Sublist (((FilterDataBuilder.new.withData [1, 2]).withFieldIndex "k" .bool
          fun x => decide (x = 1)).withTextIndex "k" (fun _ => ['a']) :
            FilterDataBuilder Numerics.exactRat Nat).indexes ∧
        d₁.name = d₂.name ∧ d₁.indexType ≠ d₂.indexType ∧
        GLobalError.index (.replace "k" indexField indexText) =
          .index (.replace d₂.name d₁.indexType d₂.indexType) :=
  ⟨rfl, build_error id rfl⟩

end FilterDataBuilder

end TreeMan
