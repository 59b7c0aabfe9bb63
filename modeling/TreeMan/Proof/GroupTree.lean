import Mathlib
import TreeMan.Framework.Rose
import TreeMan.Framework.Reachable
import TreeMan.Impl.Group

/-!
# The shape of the tree of groups and its traversals

Every call keeps the heap of groups `Shaped` (`shaped_of_reachable`): the
root at address 0 with depth 0, each other group after its parent and one
deeper, and every entry of a subgroups map naming a group of that key whose
parent is the map's group. Clearing and the calls on data only shrink maps
(`Shrinks`); grouping allocates its groups after every other.

On a shaped heap the subgroups maps unfold into a `Rose` tree of addresses
(`subtree`), and the readers of the tree are its traversals:
`collect_all_groups` lists it in `revPreorder` (`collectAllGroups_eq`),
`traverse` in `preorder`, `total_groups_count` counts it and `max_depth` is
its `maxLeaf` of depths. The tree lists no group twice (`nodup_subtree`), and
the parent pointers lead back along its edges, so `get_path` reads the keys
of the way down from the root (`getPath_of_keyPath`).
`group_tree_traversals_agree` gathers these for every heap a run reaches.
-/

namespace TreeMan

namespace Groups

variable {K : Type} [LinearOrder K] {N : Numerics} {T : Type}
variable (lower : List Char → List Char) (opText : FieldOperation N → String)

/-! ### Groups of a heap -/

section Nodes

variable {h : Groups K N T}

theorem node?_modify (a b : Nat) (f : GroupData K N T → GroupData K N T) :
    (h.modify a f).node? b = if a = b then (h.node? b).map f else h.node? b := by
  simp only [node?, modify, List.getElem?_modify]
  split_ifs <;> simp

@[simp] theorem length_modify (a : Nat) (f : GroupData K N T → GroupData K N T) :
    (h.modify a f).nodes.length = h.nodes.length :=
  List.length_modify ..

theorem node?_isSome {b : Nat} : (h.node? b).isSome ↔ b < h.nodes.length := by
  simp [node?]

theorem lt_length_of_node? {b : Nat} {g : GroupData K N T} (hg : h.node? b = some g) :
    b < h.nodes.length :=
  node?_isSome.mp (by rw [hg]; rfl)

theorem exists_node?_of_lt {b : Nat} (hb : b < h.nodes.length) : ∃ g, h.node? b = some g :=
  Option.isSome_iff_exists.mp (node?_isSome.mpr hb)

theorem parentOf_of_node? {c : Nat} {g : GroupData K N T} (hg : h.node? c = some g) :
    h.parentOf c = g.parent := by
  simp [parentOf, hg]

theorem mem_childrenOf {a c : Nat} :
    c ∈ h.childrenOf a ↔ ∃ g k, h.node? a = some g ∧ (k, c) ∈ g.subgroups.entries := by
  unfold childrenOf
  split <;> rename_i heq
  · simp [heq]
  · simp [heq]

end Nodes

/-! ### Changes that only shrink subgroups maps -/

/-- `h'` has the groups of `h`, with their keys, parents and depths, and
subgroups maps that hold no more than they did. -/
structure Shrinks (h h' : Groups K N T) : Prop where
  length : h'.nodes.length = h.nodes.length
  node : ∀ b g', h'.node? b = some g' → ∃ g, h.node? b = some g ∧ g'.key = g.key ∧
    g'.parent = g.parent ∧ g'.depth = g.depth ∧ g'.subgroups.entries ⊆ g.subgroups.entries

namespace Shrinks

variable {h h' h'' : Groups K N T}

theorem refl (h : Groups K N T) : Shrinks h h :=
  ⟨rfl, fun _ g' hg => ⟨g', hg, rfl, rfl, rfl, fun _ he => he⟩⟩

theorem trans (h₁ : Shrinks h h') (h₂ : Shrinks h' h'') : Shrinks h h'' where
  length := h₂.length.trans h₁.length
  node b g'' hg'' := by
    obtain ⟨g', hg', hk', hp', hd', hs'⟩ := h₂.node b g'' hg''
    obtain ⟨g, hg, hk, hp, hd, hs⟩ := h₁.node b g' hg'
    exact ⟨g, hg, hk'.trans hk, hp'.trans hp, hd'.trans hd, List.Subset.trans hs' hs⟩

/-- A group of `h` is still there. -/
theorem node_of (hsh : Shrinks h h') {b : Nat} {g : GroupData K N T} (hg : h.node? b = some g) :
    ∃ g', h'.node? b = some g' ∧ g'.key = g.key ∧ g'.parent = g.parent ∧ g'.depth = g.depth := by
  have hb : b < h'.nodes.length := hsh.length ▸ lt_length_of_node? hg
  obtain ⟨g', hg'⟩ := exists_node?_of_lt hb
  obtain ⟨g₀, hg₀, hk, hp, hd, -⟩ := hsh.node b g' hg'
  rw [hg] at hg₀
  cases hg₀
  exact ⟨g', hg', hk, hp, hd⟩

theorem foldl {α : Type} {F : Groups K N T → α → Groups K N T} (hF : ∀ h x, Shrinks h (F h x))
    (l : List α) (h : Groups K N T) : Shrinks h (l.foldl F h) := by
  induction l generalizing h with
  | nil => exact refl h
  | cons x l ih => exact (hF h x).trans (ih (F h x))

end Shrinks

section Shrinking

variable (h : Groups K N T)

/-- Changing one group without touching its key, parent, depth, or more
than shrinking its map. -/
theorem shrinks_modify {a : Nat} {f : GroupData K N T → GroupData K N T}
    (hf : ∀ g, (f g).key = g.key ∧ (f g).parent = g.parent ∧ (f g).depth = g.depth ∧
      (f g).subgroups.entries ⊆ g.subgroups.entries) : Shrinks h (h.modify a f) where
  length := length_modify a f
  node b g' hg' := by
    rw [node?_modify] at hg'
    split_ifs at hg' with hab
    · obtain ⟨g, hg, rfl⟩ := Option.map_eq_some_iff.mp hg'
      exact ⟨g, hg, hf g⟩
    · exact ⟨g', hg', rfl, rfl, rfl, fun _ he => he⟩

theorem shrinks_updateData (a : Nat) (f : FilterData N T → FilterData N T) :
    Shrinks h (h.updateData a f) :=
  shrinks_modify h fun _ => ⟨rfl, rfl, rfl, fun _ he => he⟩

theorem shrinks_setData (a : Nat) (d : FilterData N T) : Shrinks h (h.setData a d) :=
  shrinks_modify h fun _ => ⟨rfl, rfl, rfl, fun _ he => he⟩

theorem shrinks_resetFilters (a : Nat) : Shrinks h (h.resetFilters a) :=
  shrinks_modify h fun _ => ⟨rfl, rfl, rfl, fun _ he => he⟩

/-- Clearing shrinks the heap: the subgroups first, then the map itself. -/
theorem shrinks_clearSubgroupsFrom (fuel : Nat) : ∀ (h : Groups K N T) (a : Nat),
    Shrinks h (clearSubgroupsFrom fuel h a) := by
  induction fuel with
  | zero => exact fun h _ => Shrinks.refl h
  | succ fuel ih =>
    intro h a
    have hsub := Shrinks.foldl (fun h c => ih h c) (h.childrenOf a) h
    exact hsub.trans (shrinks_modify _ fun g => ⟨rfl, rfl, rfl, fun e he => by cases he⟩)

theorem shrinks_cleanNode (a : Nat) : Shrinks h (h.cleanNode a) :=
  (shrinks_clearSubgroupsFrom _ h a).trans (shrinks_updateData _ a _)

theorem shrinks_cleanPath (path : List Nat) : Shrinks h (h.cleanPath path) :=
  Shrinks.foldl (fun h a => shrinks_cleanNode h a) path h

theorem shrinks_goToParent (a : Nat) : Shrinks h (h.goToParent a).1 := by
  unfold goToParent
  split
  · exact Shrinks.refl h
  · exact shrinks_cleanPath h _

theorem shrinks_goToParentCurrent (a : Nat) (key : K) : Shrinks h (h.goToParentCurrent a key).1 := by
  unfold goToParentCurrent
  split
  · exact Shrinks.refl h
  · exact shrinks_cleanPath h _

theorem shrinks_goToRoot (a : Nat) : Shrinks h (h.goToRoot a).1 :=
  shrinks_cleanPath h _

/-- A call on a group's data leaves the tree as it was, on success and on
error. -/
theorem shrinks_dataCall {a : Nat} {f : FilterData N T → Outcome (FilterData N T)}
    {h' : Groups K N T} (hc : h.dataCall a f = .ok h' ∨ ∃ e, h.dataCall a f = .err e h') :
    Shrinks h h' := by
  unfold dataCall at hc
  split at hc
  · rcases hc with hc | ⟨e, hc⟩ <;> cases hc
    exact Shrinks.refl h
  · split at hc <;> rcases hc with hc | ⟨_, hc⟩ <;> cases hc <;> exact shrinks_setData h _ _

end Shrinking

/-! ### The shape -/

/-- The shape every heap of groups keeps: the root at address 0 and
depth 0, each other group after its parent and one deeper, and each entry
of a subgroups map naming a group of that key whose parent is the map's. -/
structure Shaped (h : Groups K N T) : Prop where
  root : ∃ g, h.node? 0 = some g ∧ g.parent = none ∧ g.depth = 0
  root_only : ∀ a g, h.node? a = some g → g.parent = none → a = 0
  parent : ∀ a g p, h.node? a = some g → g.parent = some p →
    p < a ∧ ∃ gp, h.node? p = some gp ∧ g.depth = gp.depth + 1
  child : ∀ a g k c, h.node? a = some g → (k, c) ∈ g.subgroups.entries →
    ∃ gc, h.node? c = some gc ∧ gc.parent = some a ∧ gc.key = k

theorem Shaped.of_shrinks {h h' : Groups K N T} (hs : h.Shaped) (hsh : Shrinks h h') :
    h'.Shaped where
  root := by
    obtain ⟨g, hg, hp, hd⟩ := hs.root
    obtain ⟨g', hg', -, hp', hd'⟩ := hsh.node_of hg
    exact ⟨g', hg', hp'.trans hp, hd'.trans hd⟩
  root_only a g' hg' hp' := by
    obtain ⟨g, hg, -, hp, -, -⟩ := hsh.node a g' hg'
    exact hs.root_only a g hg (hp.symm.trans hp')
  parent a g' p hg' hp' := by
    obtain ⟨g, hg, -, hp, hd, -⟩ := hsh.node a g' hg'
    obtain ⟨hlt, gp, hgp, hdp⟩ := hs.parent a g p hg (hp.symm.trans hp')
    obtain ⟨gp', hgp', -, -, hdp'⟩ := hsh.node_of hgp
    exact ⟨hlt, gp', hgp', by rw [hd, hdp, hdp']⟩
  child a g' k c hg' hk := by
    obtain ⟨g, hg, -, -, -, hsub⟩ := hsh.node a g' hg'
    obtain ⟨gc, hgc, hpc, hkc⟩ := hs.child a g k c hg (hsub hk)
    obtain ⟨gc', hgc', hkc', hpc', -⟩ := hsh.node_of hgc
    exact ⟨gc', hgc', hpc'.trans hpc, hkc'.trans hkc⟩

theorem shaped_newRoot (key : K) (data : List T) (description : String) :
    (newRoot key data description : Groups K N T).Shaped where
  root := ⟨_, rfl, rfl, rfl⟩
  root_only a g hg _ := by
    cases a with
    | zero => rfl
    | succ a => simp [newRoot, node?] at hg
  parent a g p hg hp := by
    cases a with
    | zero => cases hg; cases hp
    | succ a => simp [newRoot, node?] at hg
  child a g k c hg hk := by
    cases a with
    | zero => cases hg; cases hk
    | succ a => simp [newRoot, node?] at hg

/-! ### Grouping keeps the shape -/

section Attach

variable {h : Groups K N T} {a : Nat} {m : SortedMap K Nat} {newNodes : List (GroupData K N T)}

theorem node?_append {xs ys : List (GroupData K N T)} {b : Nat} :
    (⟨xs ++ ys⟩ : Groups K N T).node? b =
      if b < xs.length then (⟨xs⟩ : Groups K N T).node? b else ys[b - xs.length]? := by
  simp only [node?]
  split_ifs with hb
  · exact List.getElem?_append_left hb
  · exact List.getElem?_append_right (Nat.le_of_not_lt hb)

/-- A group of the heap before grouping, in the heap after: the map of `a`
replaced, new groups appended. -/
theorem node?_attach_of_old {b : Nat} {gb : GroupData K N T} (hb : h.node? b = some gb) :
    (⟨(h.modify a fun g => { g with subgroups := m }).nodes ++ newNodes⟩ : Groups K N T).node? b =
      some (if a = b then { gb with subgroups := m } else gb) := by
  have hlt := lt_length_of_node? hb
  rw [node?_append, if_pos (by rw [length_modify]; exact hlt), node?_modify, hb]
  split_ifs <;> rfl

theorem node?_attach_of_new {b : Nat} (hb : h.nodes.length ≤ b) :
    (⟨(h.modify a fun g => { g with subgroups := m }).nodes ++ newNodes⟩ : Groups K N T).node? b =
      newNodes[b - h.nodes.length]? := by
  rw [node?_append, if_neg (by rw [length_modify]; omega), length_modify]

theorem node?_attach_cases {b : Nat} {gb' : GroupData K N T}
    (hb : (⟨(h.modify a fun g => { g with subgroups := m }).nodes ++ newNodes⟩ :
      Groups K N T).node? b = some gb') :
    (∃ gb, h.node? b = some gb ∧ gb' = if a = b then { gb with subgroups := m } else gb) ∨
      h.nodes.length ≤ b ∧ newNodes[b - h.nodes.length]? = some gb' := by
  by_cases hlt : b < h.nodes.length
  · obtain ⟨gb, hgb⟩ := exists_node?_of_lt hlt
    rw [node?_attach_of_old hgb] at hb
    exact .inl ⟨gb, hgb, (Option.some.inj hb).symm⟩
  · rw [node?_attach_of_new (by omega)] at hb
    exact .inr ⟨by omega, hb⟩

/-- The step of grouping: the group at `a` gets the map `m`, and the new
groups, leaves one deeper than `a` with `a` for parent, go after every other;
`m` names only new groups, by their keys. A group of before keeps its parent,
which was there before; a new group has `a` for parent, and the new map of
`a` names the new groups. -/
theorem Shaped.attach (hs : h.Shaped) {g : GroupData K N T} (hg : h.node? a = some g)
    (hnew : ∀ g' ∈ newNodes,
      g'.parent = some a ∧ g'.depth = g.depth + 1 ∧ g'.subgroups.entries = [])
    (hm : ∀ k c, (k, c) ∈ m.entries →
      h.nodes.length ≤ c ∧ ∃ g', newNodes[c - h.nodes.length]? = some g' ∧ g'.key = k) :
    (⟨(h.modify a fun g => { g with subgroups := m }).nodes ++ newNodes⟩ :
      Groups K N T).Shaped where
  root := by
    obtain ⟨g₀, hg₀, hp, hd⟩ := hs.root
    refine ⟨_, node?_attach_of_old hg₀, ?_, ?_⟩ <;> split_ifs <;> assumption
  root_only b gb' hb hp := by
    rcases node?_attach_cases hb with ⟨gb, hgb, rfl⟩ | ⟨-, hnb⟩
    · exact hs.root_only b gb hgb (by split_ifs at hp <;> exact hp)
    · rw [(hnew gb' (List.mem_of_getElem? hnb)).1] at hp
      cases hp
  parent b gb' p hb hp := by
    rcases node?_attach_cases hb with ⟨gb, hgb, rfl⟩ | ⟨hle, hnb⟩
    · obtain ⟨hlt, gp, hgp, hd⟩ := hs.parent b gb p hgb (by split_ifs at hp <;> exact hp)
      refine ⟨hlt, _, node?_attach_of_old hgp, ?_⟩
      split_ifs <;> exact hd
    · obtain ⟨hpa, hd, -⟩ := hnew gb' (List.mem_of_getElem? hnb)
      rw [hpa] at hp
      cases hp
      have ha := lt_length_of_node? hg
      refine ⟨by omega, _, node?_attach_of_old hg, ?_⟩
      rw [if_pos rfl]
      exact hd
  child b gb' k c hb hk := by
    rcases node?_attach_cases hb with ⟨gb, hgb, rfl⟩ | ⟨-, hnb⟩
    · split_ifs at hk with hab
      · subst hab
        obtain ⟨hle, gc, hgc, hkc⟩ := hm k c hk
        obtain ⟨hpc, -, -⟩ := hnew gc (List.mem_of_getElem? hgc)
        exact ⟨gc, (node?_attach_of_new hle).trans hgc, hpc, hkc⟩
      · obtain ⟨gc, hgc, hpc, hkc⟩ := hs.child b gb k c hgb hk
        refine ⟨_, node?_attach_of_old hgc, ?_, ?_⟩ <;> split_ifs <;> assumption
    · rw [(hnew gb' (List.mem_of_getElem? hnb)).2.2] at hk
      cases hk

end Attach

section Grouping

variable {h h' : Groups K N T} {a : Nat} {split : Split Nat} {extractor : T → K}
  {description : String} {creator : IndexCreator lower opText T}

/-- A grouping that fails leaves the heap as it was: the map of subgroups
is replaced only once every new group has its data. -/
theorem groupByWithIndexes_err {e : GLobalError}
    (hc : h.groupByWithIndexes lower opText a split extractor description creator = .err e h') :
    h' = h := by
  unfold groupByWithIndexes at hc
  split at hc
  · cases hc
  · split at hc
    · cases hc; rfl
    · dsimp only at hc
      split at hc
      · split at hc <;> cases hc
        rfl
      · cases hc

/-- The addresses the new map gives its keys: the new groups, in order. -/
theorem mem_newSubgroups {children : List (K × FilterData N T)} {k : K} {c : Nat}
    (hk : (k, c) ∈ (SortedMap.ofList (children.zipIdx.map fun p =>
      (p.1.1, h.nodes.length + p.2))).entries) :
    h.nodes.length ≤ c ∧ ∃ d, children[c - h.nodes.length]? = some (k, d) := by
  obtain ⟨⟨⟨k', d⟩, i⟩, hi, he⟩ :=
    List.mem_map.mp (SortedMap.mem_of_find?_ofList (SortedMap.find?_eq_some_iff.mpr hk))
  cases he
  refine ⟨Nat.le_add_right _ _, d, ?_⟩
  rw [Nat.add_sub_cancel_left]
  exact List.mem_zipIdx_iff_getElem?.mp hi

/-- Grouping keeps the shape: each new group is a leaf under the group
grouped. -/
theorem Shaped.groupByWithIndexes (hs : h.Shaped)
    (hc : h.groupByWithIndexes lower opText a split extractor description creator = .ok h') :
    h'.Shaped := by
  unfold Groups.groupByWithIndexes at hc
  split at hc
  · cases hc; exact hs
  · rename_i g hg
    split at hc
    · cases hc
    · dsimp only at hc
      split at hc
      · split at hc
        · cases hc
        · rename_i children _
          cases hc
          refine hs.attach hg ?_ fun k c hk => ?_
          · intro g' hg'
            obtain ⟨p, -, rfl⟩ := List.mem_map.mp hg'
            exact ⟨rfl, rfl, rfl⟩
          · obtain ⟨hle, d, hd⟩ := mem_newSubgroups hk
            refine ⟨hle, ?_⟩
            rw [List.getElem?_map, hd]
            exact ⟨_, rfl, rfl⟩
      · cases hc

end Grouping

/-! ### Every call keeps the shape -/

section Calls

variable {h h' x : Groups K N T}

/-- A call that cannot fail gives the heap it computes. -/
theorem shrinks_of_ok (hx : Shrinks h x)
    (hc : Outcome.ok x = .ok h' ∨ ∃ e, (Outcome.ok x : Outcome (Groups K N T)) = .err e h') :
    Shrinks h h' := by
  rcases hc with hc | ⟨e, hc⟩ <;> cases hc
  exact hx

theorem Shaped.step (hs : h.Shaped) (hst : Step lower opText h h') : h'.Shaped := by
  obtain ⟨a, c, hc⟩ := hst
  cases c with
  | groupByWithIndexes split extractor description creator =>
    rcases hc with hc | ⟨e, hc⟩
    · exact hs.groupByWithIndexes lower opText hc
    · rw [groupByWithIndexes_err lower opText hc]
      exact hs
  | filtering call =>
    dsimp only [GroupCall.run, filtering] at hc
    exact hs.of_shrinks (shrinks_dataCall h hc)
  | createFieldIndex name ty extractor =>
    dsimp only [GroupCall.run] at hc
    exact hs.of_shrinks (shrinks_dataCall h hc)
  | createTextIndex name extractor =>
    dsimp only [GroupCall.run] at hc
    exact hs.of_shrinks (shrinks_dataCall h hc)
  | resetFilters => exact hs.of_shrinks (shrinks_of_ok (shrinks_resetFilters h a) hc)
  | clearAllIndexes => exact hs.of_shrinks (shrinks_of_ok (shrinks_updateData h a _) hc)
  | clearFieldIndexes => exact hs.of_shrinks (shrinks_of_ok (shrinks_updateData h a _) hc)
  | clearTextIndexes => exact hs.of_shrinks (shrinks_of_ok (shrinks_updateData h a _) hc)
  | clearSubgroups => exact hs.of_shrinks (shrinks_of_ok (shrinks_clearSubgroupsFrom _ h a) hc)
  | goToParent => exact hs.of_shrinks (shrinks_of_ok (shrinks_goToParent h a) hc)
  | goToParentCurrent key => exact hs.of_shrinks (shrinks_of_ok (shrinks_goToParentCurrent h a key) hc)
  | goToRoot => exact hs.of_shrinks (shrinks_of_ok (shrinks_goToRoot h a) hc)

/-- Every heap a run of calls reaches from `new_root` is shaped. -/
theorem shaped_of_reachable (hr : Reachable lower opText h) : h.Shaped := by
  refine Transition.Reachable.invariant (fun s hs => ?_) (fun s s' hs hst => hs.step lower opText hst) hr
  obtain ⟨key, data, description, rfl⟩ := hs
  exact shaped_newRoot key data description

end Calls

/-! ### The tree under a group -/

/-- The tree of addresses the subgroups maps unfold into under `a`, to
depth `fuel`. -/
def toTree (h : Groups K N T) : Nat → Nat → Rose Nat
  | 0, a => .node a []
  | fuel + 1, a => .node a ((h.childrenOf a).map (toTree h fuel))

/-- The tree under `a`: on a shaped heap the fuel of the heap's size
unfolds it whole (`Shaped.subtree_eq`). -/
def subtree (h : Groups K N T) (a : Nat) : Rose Nat := h.toTree h.nodes.length a

/-- An entry of the map of `a` names `c`. -/
def HasChild (h : Groups K N T) (a c : Nat) : Prop := c ∈ h.childrenOf a

/-- The parent pointer of `c` is `p`. -/
def HasParent (h : Groups K N T) (c p : Nat) : Prop := h.parentOf c = some p

/-- `ks` are the keys of the maps from the root down to `c`. -/
inductive KeyPath (h : Groups K N T) : Nat → List K → Prop
  | root {g : GroupData K N T} : h.node? 0 = some g → KeyPath h 0 [g.key]
  | child {p : Nat} {ks : List K} {g : GroupData K N T} {k : K} {c : Nat} :
      KeyPath h p ks → h.node? p = some g → (k, c) ∈ g.subgroups.entries → KeyPath h c (ks ++ [k])

section Readers

variable {h : Groups K N T}

@[simp] theorem label_toTree (f a : Nat) : (h.toTree f a).label = a := by
  cases f <;> rfl

theorem mem_preorder_toTree_succ {f a b : Nat} :
    b ∈ (h.toTree (f + 1) a).preorder ↔ b = a ∨ ∃ c ∈ h.childrenOf a, b ∈ (h.toTree f c).preorder := by
  simp [toTree]

theorem childrenOf_eq_nil {a : Nat} (ha : h.nodes.length ≤ a) : h.childrenOf a = [] := by
  have hnone : h.node? a = none := List.getElem?_eq_none ha
  simp [childrenOf, hnone]

/-- `traverse` calls its callback in preorder. -/
theorem traverseFrom_eq (f : Nat) : ∀ a, h.traverseFrom f a = (h.toTree f a).preorder := by
  induction f with
  | zero => intro a; rfl
  | succ f ih =>
    intro a
    rw [traverseFrom, toTree, Rose.preorder_node, List.flatMap_map, funext ih]

theorem countFrom_eq (f : Nat) : ∀ a, h.countFrom f a = (h.toTree f a).preorder.length := by
  induction f with
  | zero => intro a; rfl
  | succ f ih =>
    intro a
    rw [countFrom, toTree, Rose.preorder_node, List.flatMap_map, List.length_cons,
      List.length_flatMap, funext ih, Nat.add_comm]

/-- `max_depth` is the largest depth of the unfolded tree; with no
subgroups, `max?` of nothing falls back on the group's own depth. -/
theorem maxDepthFrom_eq (f : Nat) : ∀ a, h.maxDepthFrom f a = (h.toTree f a).maxLeaf h.depthOf := by
  induction f with
  | zero => intro a; simp [maxDepthFrom, toTree]
  | succ f ih =>
    intro a
    have hmap : (h.childrenOf a).map (h.maxDepthFrom f) =
        ((h.childrenOf a).map (h.toTree f)).map (Rose.maxLeaf h.depthOf) := by
      rw [List.map_map]
      exact List.map_congr_left fun c _ => ih c
    rw [maxDepthFrom, toTree, Rose.maxLeaf_node, ← hmap]
    split_ifs with hnil
    · rw [List.isEmpty_iff.mp hnil]; rfl
    · rfl

/-- Every group of the unfolded tree lies down a chain of subgroups. -/
theorem hasChild_chain_of_mem_toTree (f : Nat) :
    ∀ a b, b ∈ (h.toTree f a).preorder → Relation.ReflTransGen h.HasChild a b := by
  induction f with
  | zero =>
    intro a b hb
    rw [show b = a by simpa [toTree] using hb]
  | succ f ih =>
    intro a b hb
    rcases mem_preorder_toTree_succ.mp hb with rfl | ⟨c, hc, hbc⟩
    · exact .refl
    · exact .head hc (ih c b hbc)

theorem hasChild_chain_of_keyPath {c : Nat} {ks : List K} (hks : KeyPath h c ks) :
    Relation.ReflTransGen h.HasChild 0 c := by
  induction hks with
  | root _ => exact .refl
  | child _ hg hk ih => exact ih.tail (mem_childrenOf.mpr ⟨_, _, hg, hk⟩)

theorem parentsFrom_none (n : Nat) : h.parentsFrom n none = [] := by
  cases n <;> rfl

theorem parentOf_eq_some {c p : Nat} (hp : h.parentOf c = some p) :
    ∃ gc, h.node? c = some gc ∧ gc.parent = some p :=
  Option.bind_eq_some_iff.mp hp

theorem depthOf_of_node? {c : Nat} {g : GroupData K N T} (hg : h.node? c = some g) :
    h.depthOf c = g.depth := by
  simp [depthOf, hg]

theorem getPath_of_node? {c : Nat} {g : GroupData K N T} (hg : h.node? c = some g) :
    h.getPath c = (g.key :: (h.getParents c).filterMap fun p => (h.node? p).map (·.key)).reverse := by
  simp [getPath, hg]

end Readers

section Shape

variable {h : Groups K N T} (hs : h.Shaped)
include hs

theorem Shaped.lt_of_parentOf {c p : Nat} (hp : h.parentOf c = some p) : p < c := by
  obtain ⟨gc, hgc, hpc⟩ := parentOf_eq_some hp
  exact (hs.parent c gc p hgc hpc).1

theorem Shaped.depthOf_of_parentOf {c p : Nat} (hp : h.parentOf c = some p) :
    h.depthOf c = h.depthOf p + 1 := by
  obtain ⟨gc, hgc, hpc⟩ := parentOf_eq_some hp
  obtain ⟨-, gp, hgp, hd⟩ := hs.parent c gc p hgc hpc
  rw [depthOf_of_node? hgc, depthOf_of_node? hgp, hd]

theorem Shaped.lt_of_hasChild {a c : Nat} (hc : h.HasChild a c) :
    a < c ∧ c < h.nodes.length ∧ h.parentOf c = some a := by
  obtain ⟨g, k, hg, hk⟩ := mem_childrenOf.mp hc
  obtain ⟨gc, hgc, hpc, -⟩ := hs.child a g k c hg hk
  refine ⟨(hs.parent c gc a hgc hpc).1, lt_length_of_node? hgc, ?_⟩
  rw [parentOf_of_node? hgc, hpc]

/-- Two entries of a map never name one group: the group's key tells
which entry it is. -/
theorem Shaped.nodup_childrenOf (a : Nat) : (h.childrenOf a).Nodup := by
  unfold childrenOf
  split
  · rename_i g hg
    have hentries : g.subgroups.entries.Nodup :=
      g.subgroups.sorted.imp fun hlt heq => (ne_of_lt hlt) (congrArg Prod.fst heq)
    refine hentries.map_on fun e he e' he' hc => ?_
    obtain ⟨gc, hgc, -, hk⟩ := hs.child a g e.1 e.2 hg he
    obtain ⟨gc', hgc', -, hk'⟩ := hs.child a g e'.1 e'.2 hg he'
    rw [hc, hgc'] at hgc
    cases hgc
    exact Prod.ext (hk.symm.trans hk') hc
  · exact List.nodup_nil

/-- Up the parent pointers the addresses only fall. -/
theorem Shaped.le_of_parent_chain {b c : Nat} (hbc : Relation.ReflTransGen h.HasParent b c) :
    c ≤ b := by
  induction hbc with
  | refl => exact le_rfl
  | tail _ hp ih => exact (hs.lt_of_parentOf hp).le.trans ih

/-- A group of the unfolded tree leads up to its top through the parent
pointers: each step down is a parent pointer up. -/
theorem Shaped.parent_chain_of_mem_toTree {f a b : Nat} (hb : b ∈ (h.toTree f a).preorder) :
    Relation.ReflTransGen h.HasParent b a := by
  have hup : ∀ x y, h.HasChild x y → Function.swap h.HasParent x y :=
    fun _ _ hc => (hs.lt_of_hasChild hc).2.2
  exact Relation.reflTransGen_swap.mp
    (Relation.ReflTransGen.mono hup a b (hasChild_chain_of_mem_toTree f a b hb))

/-- Two subgroups of one group share no group below them: the parent
pointers from a common group would lead to both, and through the parent to
the other, which lies after it; from one subgroup of `a` up to another is no
step. -/
theorem Shaped.eq_of_mem_toTree {f f' a c₁ c₂ b : Nat} (hc₁ : h.HasChild a c₁)
    (hc₂ : h.HasChild a c₂) (hb₁ : b ∈ (h.toTree f c₁).preorder)
    (hb₂ : b ∈ (h.toTree f' c₂).preorder) : c₁ = c₂ := by
  have hunique : Relator.RightUnique h.HasParent := fun _ _ _ hx hy =>
    Option.some.inj (hx.symm.trans hy)
  have hstay : ∀ {c c'}, h.HasChild a c → h.HasChild a c' →
      Relation.ReflTransGen h.HasParent c c' → c = c' := by
    intro c c' hc hc' hcc'
    rcases hcc'.cases_head with heq | ⟨x, hx, hxc'⟩
    · exact heq
    · have hxa : x = a := Option.some.inj (hx.symm.trans (hs.lt_of_hasChild hc).2.2)
      subst hxa
      have hle := hs.le_of_parent_chain hxc'
      have hlt := (hs.lt_of_hasChild hc').1
      omega
  rcases Relation.ReflTransGen.total_of_right_unique hunique
      (hs.parent_chain_of_mem_toTree hb₁) (hs.parent_chain_of_mem_toTree hb₂) with h12 | h21
  · exact hstay hc₁ hc₂ h12
  · exact (hstay hc₂ hc₁ h21).symm

/-- The unfolded tree lists no group twice, at any fuel: every group under a
subgroup lies after it, so after the top. -/
theorem Shaped.nodup_toTree (f : Nat) : ∀ a, (h.toTree f a).preorder.Nodup := by
  induction f with
  | zero => intro a; simp [toTree]
  | succ f ih =>
    intro a
    simp only [toTree, Rose.preorder_node, List.nodup_cons, List.flatMap_map]
    refine ⟨fun ha => ?_, List.nodup_flatMap.mpr ⟨fun c _ => ih c, ?_⟩⟩
    · obtain ⟨c, hc, hac⟩ := List.mem_flatMap.mp ha
      have hle := hs.le_of_parent_chain (hs.parent_chain_of_mem_toTree hac)
      have hlt := (hs.lt_of_hasChild hc).1
      omega
    · exact (hs.nodup_childrenOf a).pairwise_of_forall_ne fun c₁ hc₁ c₂ hc₂ hne b hb₁ hb₂ =>
        hne (hs.eq_of_mem_toTree hc₁ hc₂ hb₁ hb₂)

/-- Past the end of the heap a fuel is enough: every subgroup lies after
its group. -/
theorem Shaped.toTree_succ (f : Nat) :
    ∀ a, h.nodes.length ≤ a + f → h.toTree (f + 1) a = h.toTree f a := by
  induction f with
  | zero =>
    intro a ha
    rw [Nat.add_zero] at ha
    simp [toTree, childrenOf_eq_nil ha]
  | succ f ih =>
    intro a ha
    have hmap : (h.childrenOf a).map (h.toTree (f + 1)) = (h.childrenOf a).map (h.toTree f) :=
      List.map_congr_left fun c hc => ih c (by have := (hs.lt_of_hasChild hc).1; omega)
    rw [toTree, toTree, hmap]

theorem Shaped.subtree_eq (a : Nat) : h.subtree a = .node a ((h.childrenOf a).map h.subtree) := by
  obtain ⟨L, hL⟩ : ∃ L, h.nodes.length = L + 1 := by
    obtain ⟨g, hg, -⟩ := hs.root
    have hpos := lt_length_of_node? hg
    exact ⟨h.nodes.length - 1, by omega⟩
  have hmap : (h.childrenOf a).map (h.toTree L) = (h.childrenOf a).map h.subtree :=
    List.map_congr_left fun c hc => by
      have := (hs.lt_of_hasChild hc).1
      rw [subtree, hL, hs.toTree_succ L c (by omega)]
  rw [subtree, hL, toTree, hmap]

theorem Shaped.nodup_subtree (a : Nat) : (h.subtree a).preorder.Nodup :=
  hs.nodup_toTree _ a

/-- The tree under `a` holds what a chain of subgroups leads to. -/
theorem Shaped.mem_subtree_iff {a b : Nat} :
    b ∈ (h.subtree a).preorder ↔ Relation.ReflTransGen h.HasChild a b := by
  refine ⟨hasChild_chain_of_mem_toTree _ a b, fun hab => ?_⟩
  induction hab using Relation.ReflTransGen.head_induction_on with
  | refl => simpa only [subtree, label_toTree] using Rose.label_mem_preorder (h.subtree b)
  | head hac _ ih =>
    rw [hs.subtree_eq]
    simp only [Rose.preorder_node, List.flatMap_map, List.mem_cons, List.mem_flatMap]
    exact .inr ⟨_, hac, ih⟩

theorem Shaped.length_preorder_subtree_le (a : Nat) :
    (h.subtree a).preorder.length ≤ h.nodes.length + 1 := by
  have hsub : (h.subtree a).preorder ⊆ a :: List.range h.nodes.length := by
    intro b hb
    rcases (hs.mem_subtree_iff.mp hb).cases_tail with rfl | ⟨c, -, hcb⟩
    · exact List.mem_cons_self
    · exact List.mem_cons_of_mem _ (List.mem_range.mpr (hs.lt_of_hasChild hcb).2.1)
  calc (h.subtree a).preorder.length
      ≤ (a :: List.range h.nodes.length).length := ((hs.nodup_subtree a).subperm hsub).length_le
    _ = h.nodes.length + 1 := by simp

/-- The loop of `collect_all_groups` is the search on the trees of its
stack. -/
theorem Shaped.collectLoop_eq (n : Nat) :
    ∀ stack acc, h.collectLoop n stack acc = Rose.dfs n (stack.map h.subtree) acc := by
  induction n with
  | zero => intro _ _; rfl
  | succ n ih =>
    intro stack acc
    cases stack with
    | nil => rfl
    | cons b stack =>
      rw [collectLoop, ih, List.map_cons, Rose.dfs, hs.subtree_eq b, Rose.children_node,
        Rose.label_node, List.map_append, List.map_reverse]

theorem Shaped.collectAllGroups_eq (a : Nat) : h.collectAllGroups a = (h.subtree a).revPreorder := by
  rw [collectAllGroups, hs.collectLoop_eq, List.map_singleton, Rose.dfs_eq] <;>
    simp [hs.length_preorder_subtree_le a]

theorem Shaped.rising_toTree (f : Nat) : ∀ a, (h.toTree f a).Rising h.depthOf := by
  induction f with
  | zero => intro a; exact .node (by simp) (by simp)
  | succ f ih =>
    intro a
    refine .node (fun t ht => ?_) (fun t ht => ?_)
    · obtain ⟨c, hc, rfl⟩ := List.mem_map.mp ht
      rw [label_toTree, hs.depthOf_of_parentOf (hs.lt_of_hasChild hc).2.2]
      exact Nat.le_succ _
    · obtain ⟨c, -, rfl⟩ := List.mem_map.mp ht
      exact ih c

theorem Shaped.exists_keyPath {c : Nat} (hc : Relation.ReflTransGen h.HasChild 0 c) :
    ∃ ks, KeyPath h c ks := by
  induction hc with
  | refl =>
    obtain ⟨g, hg, -⟩ := hs.root
    exact ⟨_, .root hg⟩
  | tail _ hxc ih =>
    obtain ⟨ks, hks⟩ := ih
    obtain ⟨g, k, hg, hk⟩ := mem_childrenOf.mp hxc
    exact ⟨_, .child hks hg hk⟩

/-- A group of the tree is allocated. -/
theorem Shaped.node_of_hasChild_chain {c : Nat} (hc : Relation.ReflTransGen h.HasChild 0 c) :
    ∃ g, h.node? c = some g := by
  rcases hc.cases_tail with rfl | ⟨p, -, hpc⟩
  · obtain ⟨g, hg, -⟩ := hs.root
    exact ⟨g, hg⟩
  · obtain ⟨g, k, hg, hk⟩ := mem_childrenOf.mp hpc
    obtain ⟨gc, hgc, -⟩ := hs.child p g k c hg hk
    exact ⟨gc, hgc⟩

/-- The fuel of `get_parents` outlasts the way up: each pointer falls. -/
theorem Shaped.parentsFrom_succ (n : Nat) :
    ∀ x : Option Nat, (∀ r, x = some r → r < n) → h.parentsFrom (n + 1) x = h.parentsFrom n x := by
  induction n with
  | zero =>
    intro x hx
    cases x with
    | none => rfl
    | some r => exact absurd (hx r rfl) (Nat.not_lt_zero r)
  | succ n ih =>
    intro x hx
    cases x with
    | none => rfl
    | some r =>
      have hr := hx r rfl
      have hnext := ih (h.parentOf r) fun q hq => by
        have := hs.lt_of_parentOf hq
        omega
      rw [parentsFrom, parentsFrom, hnext]

theorem Shaped.getParents_of_parentOf {c p : Nat} (hp : h.parentOf c = some p) :
    h.getParents c = p :: h.getParents p := by
  have hc : c < h.nodes.length := by
    obtain ⟨gc, hgc, -⟩ := parentOf_eq_some hp
    exact lt_length_of_node? hgc
  have hpc := hs.lt_of_parentOf hp
  obtain ⟨L, hL⟩ : ∃ L, h.nodes.length = L + 1 := ⟨h.nodes.length - 1, by omega⟩
  have hrest := hs.parentsFrom_succ L (h.parentOf p) fun q hq => by
    have := hs.lt_of_parentOf hq
    omega
  rw [getParents, getParents, hp, hL, parentsFrom, hrest]

/-- `get_path` reads the keys from the root down, one more than the depth. -/
theorem Shaped.getPath_of_keyPath {c : Nat} {ks : List K} (hks : KeyPath h c ks) :
    h.getPath c = ks ∧ ks.length = h.depthOf c + 1 := by
  induction hks with
  | root hg =>
    obtain ⟨g₀, hg₀, hp, hd⟩ := hs.root
    rw [hg] at hg₀
    cases hg₀
    have hparents : h.getParents 0 = [] := by
      rw [getParents, parentOf_of_node? hg, hp, parentsFrom_none]
    refine ⟨?_, ?_⟩
    · rw [getPath_of_node? hg, hparents]; rfl
    · rw [depthOf_of_node? hg, hd]; rfl
  | @child p ks g k c _ hg hk ih =>
    obtain ⟨gc, hgc, hpc, hkc⟩ := hs.child p g k c hg hk
    have hparent : h.parentOf c = some p := (parentOf_of_node? hgc).trans hpc
    have hkey : (h.node? p).map (·.key) = some g.key := by rw [hg]; rfl
    refine ⟨?_, ?_⟩
    · rw [getPath_of_node? hgc, hs.getParents_of_parentOf hparent, List.filterMap_cons, hkey,
        ← ih.1, getPath_of_node? hg, hkc]
      simp
    · rw [List.length_append, ih.2, hs.depthOf_of_parentOf hparent]
      rfl

end Shape

/-! ### The readers agree -/

/-- What the readers of the tree say of the groups under the root. -/
structure Traversals (h : Groups K N T) : Prop where
  nodup : (h.collectAllGroups 0).Nodup
  mem_collect : ∀ c, c ∈ h.collectAllGroups 0 ↔ ∃ ks, KeyPath h c ks
  length_collect : (h.collectAllGroups 0).length = h.totalGroupsCount 0
  traverse_perm : (h.traverse 0).Perm (h.collectAllGroups 0)
  le_maxDepth : ∀ c ∈ h.collectAllGroups 0, h.depthOf c ≤ h.maxDepth 0
  exists_maxDepth : ∃ c ∈ h.collectAllGroups 0, h.depthOf c = h.maxDepth 0
  depth : ∀ c ks, KeyPath h c ks → c ≠ 0 →
    ∃ p ks', h.parentOf c = some p ∧ KeyPath h p ks' ∧ h.depthOf c = h.depthOf p + 1
  path : ∀ c ks, KeyPath h c ks → h.getPath c = ks ∧ ks.length = h.depthOf c + 1

theorem Shaped.traversals {h : Groups K N T} (hs : h.Shaped) : h.Traversals where
  nodup := by
    rw [hs.collectAllGroups_eq]
    exact (Rose.revPreorder_perm _).nodup_iff.mpr (hs.nodup_subtree 0)
  mem_collect c := by
    rw [hs.collectAllGroups_eq, (Rose.revPreorder_perm _).mem_iff, hs.mem_subtree_iff]
    exact ⟨hs.exists_keyPath, fun ⟨_, hks⟩ => hasChild_chain_of_keyPath hks⟩
  length_collect := by
    rw [hs.collectAllGroups_eq, (Rose.revPreorder_perm _).length_eq, totalGroupsCount, countFrom_eq]
    rfl
  traverse_perm := by
    rw [hs.collectAllGroups_eq, traverse, traverseFrom_eq]
    exact (Rose.revPreorder_perm _).symm
  le_maxDepth c hc := by
    rw [hs.collectAllGroups_eq] at hc
    rw [maxDepth, maxDepthFrom_eq]
    exact Rose.le_maxLeaf (hs.rising_toTree _ 0) c ((Rose.revPreorder_perm _).mem_iff.mp hc)
  exists_maxDepth := by
    obtain ⟨c, hc, hd⟩ := Rose.exists_maxLeaf h.depthOf (h.subtree 0)
    refine ⟨c, ?_, ?_⟩
    · rw [hs.collectAllGroups_eq]
      exact (Rose.revPreorder_perm _).mem_iff.mpr hc
    · rw [hd, maxDepth, maxDepthFrom_eq]
      rfl
  depth c ks hks hc := by
    cases hks with
    | root _ => exact absurd rfl hc
    | @child p ks' g k _ hks' hg hk =>
      obtain ⟨gc, hgc, hpc, -⟩ := hs.child p g k c hg hk
      have hparent : h.parentOf c = some p := (parentOf_of_node? hgc).trans hpc
      exact ⟨p, ks', hparent, hks', hs.depthOf_of_parentOf hparent⟩
  path _ _ hks := hs.getPath_of_keyPath hks

theorem group_tree_traversals_agree {h : Groups K N T} (hr : Reachable lower opText h) :
    h.Traversals :=
  (shaped_of_reachable lower opText hr).traversals

/-- The rows `1` and `2` under a root of key `0`, grouped by themselves: the
subgroups of keys `1` and `2`, at the addresses `1` and `2`. -/
def groupedTwo : Groups Nat Numerics.exactRat Nat :=
  ((newRoot 0 [1, 2] "root").groupBy id (fun _ => "") 0 Split.whole id "g").ok?.getD (newRoot 0 [] "")

theorem reachable_groupedTwo : Reachable id (fun _ => "") groupedTwo :=
  .step (.init ⟨0, [1, 2], "root", rfl⟩)
    ⟨0, .groupByWithIndexes Split.whole id "g" (IndexCreator.ok id (fun _ => "")),
      .inl (Outcome.eq_ok_getD _ (by decide +kernel))⟩

/-- The root over two rows, grouped into two subgroups. -/
theorem group_tree_traversals_agree_groupedTwo :
    Reachable id (fun _ => "") groupedTwo ∧ groupedTwo.Traversals :=
  ⟨reachable_groupedTwo, group_tree_traversals_agree id (fun _ => "") reachable_groupedTwo⟩

end Groups

end TreeMan
