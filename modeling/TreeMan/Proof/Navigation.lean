import Mathlib
import TreeMan.Proof.GroupTree

/-!
# Walking up the tree of groups

`go_to_root` and `go_to_parent_current` walk up the parent pointers of a
group and clean each group on the way (`clean_path_to_target`: its subgroups
cleared recursively, its filters reset to the source, its indexes dropped).
In a heap of the shape every run keeps (`Shaped`), a group and its parents,
nearest first, are strictly decreasing addresses that end at the root
(`Shaped.getParents_chain`). So:

* `goToRoot_leaves_root_alone`: `go_to_root` from a group of the tree
  returns the root, which it leaves with no subgroups, so that the readers
  of the tree see the root alone, and with its data reset to the source and
  no indexes;
* `goToParentCurrent_nearest`: `go_to_parent_current` returns the nearest
  parent of the key, which it leaves with no subgroups and its data reset.

Both rest on what cleaning changes: clearing subgroups changes no group's
data (`SameData`), and cleaning a group changes the data of that group only
(`data_cleanNode_ne`). Clearing is local, on any heap
(`clearSubgroups_local`): `clear_subgroups` leaves the group with no
subgroups and changes no group that it does not reach through the maps.
-/

namespace TreeMan

namespace Groups

variable {K : Type} [LinearOrder K] {N : Numerics} {T : Type}

/-! ### What cleaning changes -/

/-- Every group has in `h'` the data it has in `h`. -/
def SameData (h h' : Groups K N T) : Prop :=
  ∀ x, (h'.node? x).map (·.data) = (h.node? x).map (·.data)

theorem SameData.trans {h₁ h₂ h₃ : Groups K N T} (h₁₂ : SameData h₁ h₂) (h₂₃ : SameData h₂ h₃) :
    SameData h₁ h₃ :=
  fun x => (h₂₃ x).trans (h₁₂ x)

theorem sameData_modify (h : Groups K N T) (a : Nat) {f : GroupData K N T → GroupData K N T}
    (hf : ∀ g, (f g).data = g.data) : SameData h (h.modify a f) := by
  intro x
  rw [node?_modify]
  split_ifs
  · cases h.node? x <;> simp [hf]
  · rfl

theorem sameData_foldl {α : Type} {F : Groups K N T → α → Groups K N T}
    (hF : ∀ h x, SameData h (F h x)) (l : List α) (h : Groups K N T) : SameData h (l.foldl F h) := by
  induction l generalizing h with
  | nil => exact fun _ => rfl
  | cons x l ih => exact (hF h x).trans (ih (F h x))

/-- Clearing subgroups touches the subgroups maps only. -/
theorem sameData_clearSubgroupsFrom (fuel : Nat) :
    ∀ (h : Groups K N T) (a : Nat), SameData h (clearSubgroupsFrom fuel h a) := by
  induction fuel with
  | zero => exact fun _ _ _ => rfl
  | succ fuel ih =>
    intro h a
    exact (sameData_foldl (fun h c => ih h c) (h.childrenOf a) h).trans
      (sameData_modify _ a fun _ => rfl)

/-- The map of the group cleared is empty: it is emptied last. -/
theorem childrenOf_clearSubgroupsFrom (fuel : Nat) (h : Groups K N T) (a : Nat) :
    (clearSubgroupsFrom (fuel + 1) h a).childrenOf a = [] := by
  rw [clearSubgroupsFrom]
  generalize (h.childrenOf a).foldl (fun h c => clearSubgroupsFrom fuel h c) h = h'
  unfold childrenOf
  rw [node?_modify, if_pos rfl]
  cases h'.node? a <;> rfl

theorem childrenOf_updateData (h : Groups K N T) (a b : Nat) (f : FilterData N T → FilterData N T) :
    (h.updateData a f).childrenOf b = h.childrenOf b := by
  unfold updateData childrenOf
  rw [node?_modify]
  split_ifs
  · cases h.node? b <;> rfl
  · rfl

/-- Cleaning a group leaves it with no subgroups, and its data reset to the
source with no indexes. -/
theorem cleanNode_self (h : Groups K N T) {c : Nat} {g : GroupData K N T} (hg : h.node? c = some g) :
    (h.cleanNode c).childrenOf c = [] ∧
      ∃ g', (h.cleanNode c).node? c = some g' ∧ g'.data = g.data.resetToSource.clearAllIndexes := by
  obtain ⟨L, hL⟩ : ∃ L, h.nodes.length = L + 1 := ⟨h.nodes.length - 1, by
    have := lt_length_of_node? hg
    omega⟩
  have hdata := sameData_clearSubgroupsFrom h.nodes.length h c c
  rw [hg, Option.map_some] at hdata
  obtain ⟨g₁, hg₁, hd₁⟩ := Option.map_eq_some_iff.mp hdata
  refine ⟨?_, { g₁ with data := g₁.data.resetToSource.clearAllIndexes }, ?_, by rw [hd₁]⟩
  · rw [cleanNode, childrenOf_updateData, clearSubgroups, hL, childrenOf_clearSubgroupsFrom]
  · rw [cleanNode, updateData, node?_modify, if_pos rfl, clearSubgroups, hg₁]
    rfl

/-- Cleaning a group changes the data of no other group. -/
theorem data_cleanNode_ne (h : Groups K N T) {c x : Nat} (hx : x ≠ c) :
    ((h.cleanNode c).node? x).map (·.data) = (h.node? x).map (·.data) := by
  rw [cleanNode, updateData, node?_modify, if_neg (Ne.symm hx)]
  exact sameData_clearSubgroupsFrom _ h c x

theorem data_cleanPath_of_not_mem {x : Nat} :
    ∀ {path : List Nat} (h : Groups K N T), x ∉ path →
      ((h.cleanPath path).node? x).map (·.data) = (h.node? x).map (·.data)
  | [], _, _ => rfl
  | c :: path, h, hx => by
    rw [List.mem_cons, not_or] at hx
    rw [cleanPath, List.foldl_cons, ← cleanPath, data_cleanPath_of_not_mem _ hx.2,
      data_cleanNode_ne h hx.1]

/-- Cleaning a path that ends at `c`, and passes through `c` there only,
leaves `c` with no subgroups and its data reset. -/
theorem cleanPath_append_self (h : Groups K N T) {pre : List Nat} {c : Nat} {g : GroupData K N T}
    (hg : h.node? c = some g) (hc : c ∉ pre) :
    (h.cleanPath (pre ++ [c])).childrenOf c = [] ∧
      ∃ g', (h.cleanPath (pre ++ [c])).node? c = some g' ∧
        g'.data = g.data.resetToSource.clearAllIndexes := by
  have hdata := data_cleanPath_of_not_mem h hc
  rw [hg, Option.map_some] at hdata
  obtain ⟨g₁, hg₁, hd₁⟩ := Option.map_eq_some_iff.mp hdata
  rw [cleanPath, List.foldl_append, List.foldl_cons, List.foldl_nil, ← cleanPath, ← hd₁]
  exact (h.cleanPath pre).cleanNode_self hg₁

/-! ### The readers of a tree of one group -/

theorem collectAllGroups_of_childrenOf_nil (h : Groups K N T) {a : Nat} (hc : h.childrenOf a = []) :
    h.collectAllGroups a = [a] := by
  unfold collectAllGroups
  rw [collectLoop, hc]
  cases h.nodes.length <;> rfl

/-! ### What clearing a subtree leaves alone -/

/-- Clearing only empties maps, so it adds no entry. -/
theorem Shrinks.hasChild {h h' : Groups K N T} (hs : Shrinks h h') {a c : Nat} (hc : h'.HasChild a c) :
    h.HasChild a c := by
  obtain ⟨g', k, hg', hk⟩ := mem_childrenOf.mp hc
  obtain ⟨g, hg, -, -, -, hsub⟩ := hs.node a g' hg'
  exact mem_childrenOf.mpr ⟨g, k, hg, hsub hk⟩

/-- The loop of `clear_subgroups` over the children, one level down: if no
child reaches `b`, no step of the loop changes `b`. The heaps of the loop
have fewer entries than `h`, so a child reaches in them no more than in `h`. -/
theorem node?_foldl_clearSubgroupsFrom {fuel b : Nat} {h : Groups K N T}
    (ih : ∀ (h : Groups K N T) (c : Nat), ¬ Relation.ReflTransGen h.HasChild c b →
      (clearSubgroupsFrom fuel h c).node? b = h.node? b) :
    ∀ (l : List Nat) (h₀ : Groups K N T), Shrinks h h₀ → h₀.node? b = h.node? b →
      (∀ c ∈ l, ¬ Relation.ReflTransGen h.HasChild c b) →
      (l.foldl (fun h c => clearSubgroupsFrom fuel h c) h₀).node? b = h.node? b
  | [], _, _, h₀b, _ => h₀b
  | c :: l, h₀, hs, h₀b, hl => by
    have hc : ¬ Relation.ReflTransGen h₀.HasChild c b := fun hcb =>
      hl c List.mem_cons_self (Relation.ReflTransGen.mono (fun _ _ hx => hs.hasChild hx) _ _ hcb)
    exact node?_foldl_clearSubgroupsFrom ih l _ (hs.trans (shrinks_clearSubgroupsFrom fuel h₀ c))
      ((ih h₀ c hc).trans h₀b) fun c' hc' => hl c' (List.mem_cons_of_mem _ hc')

/-- `clear_subgroups` changes no group that the group cleared does not reach
through the maps: a subgroup that reached it would make the group reach it. -/
theorem node?_clearSubgroupsFrom_of_not_reach {b : Nat} (fuel : Nat) :
    ∀ (h : Groups K N T) (a : Nat), ¬ Relation.ReflTransGen h.HasChild a b →
      (clearSubgroupsFrom fuel h a).node? b = h.node? b := by
  induction fuel with
  | zero => exact fun _ _ _ => rfl
  | succ fuel ih =>
    intro h a hab
    have hne : a ≠ b := fun hab' => hab (hab' ▸ .refl)
    rw [clearSubgroupsFrom, node?_modify, if_neg hne]
    exact node?_foldl_clearSubgroupsFrom ih _ h (Shrinks.refl h) rfl fun c hc hcb => hab (.head hc hcb)

/-- `clear_subgroups` leaves the group with no subgroups; an empty heap has
no group to clear. -/
theorem childrenOf_clearSubgroups (h : Groups K N T) (a : Nat) : (h.clearSubgroups a).childrenOf a = [] := by
  unfold clearSubgroups
  cases hlen : h.nodes.length with
  | zero =>
    have hnone : h.node? a = none := by
      cases hg : h.node? a with
      | none => rfl
      | some g => exact absurd (lt_length_of_node? hg) (by omega)
    simp [clearSubgroupsFrom, childrenOf, hnone]
  | succ n => exact childrenOf_clearSubgroupsFrom n h a

/-- `clear_subgroups`, on any heap: the group cleared has no subgroups left,
so `collect_all_groups` from it sees it alone; no group's data changes; and
every group the cleared group does not reach through the subgroups maps is
left exactly as it was. -/
theorem clearSubgroups_local (h : Groups K N T) (a : Nat) :
    (h.clearSubgroups a).collectAllGroups a = [a] ∧ SameData h (h.clearSubgroups a) ∧
      ∀ b, ¬ Relation.ReflTransGen h.HasChild a b → (h.clearSubgroups a).node? b = h.node? b :=
  ⟨collectAllGroups_of_childrenOf_nil _ (childrenOf_clearSubgroups h a),
    sameData_clearSubgroupsFrom _ h a, fun _ hb => node?_clearSubgroupsFrom_of_not_reach _ h a hb⟩

/-- The parents up to the first of a key: the parents before it have
another key. -/
theorem pathToKey_eq_some (h : Groups K N T) {key : K} :
    ∀ {ps path : List Nat}, h.pathToKey key ps = some path →
      ∃ pre p post, ps = pre ++ p :: post ∧ path = pre ++ [p] ∧
        (∀ q ∈ pre, (h.node? q).map (·.key) ≠ some key) ∧ (h.node? p).map (·.key) = some key
  | [], _, hp => by cases hp
  | q :: ps, path, hp => by
    unfold pathToKey at hp
    split_ifs at hp with hq
    · cases hp
      exact ⟨[], q, ps, rfl, rfl, fun _ hr => absurd hr List.not_mem_nil, hq⟩
    · obtain ⟨path', hpath', rfl⟩ := Option.map_eq_some_iff.mp hp
      obtain ⟨pre, p, post, rfl, rfl, hpre, hkey⟩ := pathToKey_eq_some h hpath'
      refine ⟨q :: pre, p, post, rfl, rfl, fun r hr => ?_, hkey⟩
      rcases List.mem_cons.mp hr with rfl | hr
      · exact hq
      · exact hpre r hr

/-! ### The parents of a group -/

section Shape

variable {h : Groups K N T} (hs : h.Shaped)
include hs

/-- A group and its parents, nearest first, are strictly decreasing
addresses that end at the root, the only group with no parent. -/
theorem Shaped.getParents_chain : ∀ (a : Nat) {g : GroupData K N T}, h.node? a = some g →
    (a :: h.getParents a).Pairwise (· > ·) ∧ ∃ path, a :: h.getParents a = path ++ [0] := by
  intro a
  induction a using Nat.strong_induction_on with
  | _ a ih =>
    intro g hg
    cases hpa : h.parentOf a with
    | none =>
      have ha : a = 0 := hs.root_only a g hg (by rw [← parentOf_of_node? hg, hpa])
      subst ha
      rw [getParents, hpa, parentsFrom_none]
      exact ⟨List.pairwise_singleton _ _, [], rfl⟩
    | some p =>
      have hpa' := hs.lt_of_parentOf hpa
      obtain ⟨gp, hgp, -⟩ := (hs.parent a g p hg (by rw [← parentOf_of_node? hg, hpa])).2
      obtain ⟨hdec, path, hpath⟩ := ih p hpa' hgp
      rw [hs.getParents_of_parentOf hpa]
      refine ⟨List.Pairwise.cons (fun x hx => ?_) hdec, a :: path, by rw [hpath]; rfl⟩
      rcases List.mem_cons.mp hx with rfl | hx
      · exact hpa'
      · exact lt_trans ((List.pairwise_cons.mp hdec).1 x hx) hpa'

end Shape

/-! ### Navigation over every run -/

section Runs

variable (lower : List Char → List Char) (opText : FieldOperation N → String)
  {h : Groups K N T}

/-- On every heap a run of group calls reaches, `go_to_root` from a group of
the tree (one the subgroups maps lead to from the root) returns the root,
after which the readers of the tree see the root alone (no subgroups are
left under it), and the root's data is reset to the source with no indexes.
The tree holds the parents of such a group, so each `Weak::upgrade` on the
way up succeeds in the source as it does in the model. The parents fall
strictly to the root, so the root is cleaned last and only there. -/
theorem goToRoot_leaves_root_alone (hr : Reachable lower opText h) {a : Nat}
    (hreach : Relation.ReflTransGen h.HasChild 0 a) :
    (h.goToRoot a).2 = 0 ∧ (h.goToRoot a).1.collectAllGroups 0 = [0] ∧
      ∃ g₀ g₀', h.node? 0 = some g₀ ∧ (h.goToRoot a).1.node? 0 = some g₀' ∧
        g₀'.data = g₀.data.resetToSource.clearAllIndexes := by
  have hs := shaped_of_reachable lower opText hr
  obtain ⟨g, ha⟩ := hs.node_of_hasChild_chain hreach
  obtain ⟨hdec, path, hpath⟩ := hs.getParents_chain a ha
  have h0 : 0 ∉ path := by
    intro h0
    rw [hpath] at hdec
    exact lt_irrefl 0 ((List.pairwise_append.mp hdec).2.2 0 h0 0 (List.mem_singleton_self 0))
  obtain ⟨g₀, hg₀, -⟩ := hs.root
  obtain ⟨hchild, g₀', hg₀', hdata⟩ := h.cleanPath_append_self hg₀ h0
  have hlast : ∀ (l : List Nat) (hl : l ≠ []), l = path ++ [0] → l.getLast hl = 0 := by
    rintro l hl rfl
    exact List.getLast_append_singleton _
  have heap : (h.goToRoot a).1 = h.cleanPath (path ++ [0]) := by
    rw [← hpath]
    rfl
  refine ⟨hlast _ _ hpath, ?_, g₀, g₀', hg₀, heap ▸ hg₀', hdata⟩
  rw [heap]
  exact collectAllGroups_of_childrenOf_nil _ hchild

/-- On every heap a run of group calls reaches, `go_to_parent_current` from
a group, when it returns a group, returns the nearest parent of the key,
after which that parent has no subgroups and its data is reset to the
source with no indexes. The parents strictly decrease, so the parent found
is not among the nearer ones that are cleaned before it. -/
theorem goToParentCurrent_nearest (hr : Reachable lower opText h) {a : Nat}
    {g : GroupData K N T} (ha : h.node? a = some g) {key : K} {p : Nat}
    (hp : (h.goToParentCurrent a key).2 = some p) :
    (∃ pre post, h.getParents a = pre ++ p :: post ∧
        (∀ q ∈ pre, (h.node? q).map (·.key) ≠ some key) ∧ (h.node? p).map (·.key) = some key) ∧
      (h.goToParentCurrent a key).1.childrenOf p = [] ∧
      ∃ gp gp', h.node? p = some gp ∧ (h.goToParentCurrent a key).1.node? p = some gp' ∧
        gp'.data = gp.data.resetToSource.clearAllIndexes := by
  have hs := shaped_of_reachable lower opText hr
  obtain ⟨hdec, -⟩ := hs.getParents_chain a ha
  cases hpk : h.pathToKey key (h.getParents a) with
  | none => simp [goToParentCurrent, hpk] at hp
  | some path =>
    simp only [goToParentCurrent, hpk] at hp ⊢
    obtain ⟨pre, p', post, hparents, rfl, hpre, hkey⟩ := h.pathToKey_eq_some hpk
    rw [List.getLast?_append, List.getLast?_singleton, Option.some_or, Option.some.injEq] at hp
    subst hp
    have hnot : p' ∉ pre := by
      intro hmem
      rw [hparents, List.pairwise_cons, List.pairwise_append] at hdec
      exact lt_irrefl p' (hdec.2.2.2 p' hmem p' List.mem_cons_self)
    obtain ⟨gp, hgp, -⟩ := Option.map_eq_some_iff.mp hkey
    obtain ⟨hchild, gp', hgp', hdata⟩ := h.cleanPath_append_self hgp hnot
    exact ⟨⟨pre, post, hparents, hpre, hkey⟩, hchild, gp, gp', hgp, hgp', hdata⟩

/-- `go_to_root` from the subgroup of key `1`. -/
theorem goToRoot_from_subgroup :
    Reachable id (fun _ => "") groupedTwo ∧ Relation.ReflTransGen groupedTwo.HasChild 0 1 ∧
      (groupedTwo.goToRoot 1).2 = 0 ∧ (groupedTwo.goToRoot 1).1.collectAllGroups 0 = [0] ∧
      ∃ g₀ g₀', groupedTwo.node? 0 = some g₀ ∧ (groupedTwo.goToRoot 1).1.node? 0 = some g₀' ∧
        g₀'.data = g₀.data.resetToSource.clearAllIndexes := by
  have hreach : Relation.ReflTransGen groupedTwo.HasChild 0 1 :=
    .single (show 1 ∈ groupedTwo.childrenOf 0 by decide +kernel)
  exact ⟨reachable_groupedTwo, hreach,
    goToRoot_leaves_root_alone id (fun _ => "") reachable_groupedTwo hreach⟩

/-- `go_to_parent_current` from the subgroup of key `1` to the key `0` of the
root. -/
theorem goToParentCurrent_root_key :
    Reachable id (fun _ => "") groupedTwo ∧ (groupedTwo.node? 1).isSome = true ∧
      (groupedTwo.goToParentCurrent 1 0).2 = some 0 ∧
      (∃ pre post, groupedTwo.getParents 1 = pre ++ 0 :: post ∧
        (∀ q ∈ pre, (groupedTwo.node? q).map (·.key) ≠ some 0) ∧
        (groupedTwo.node? 0).map (·.key) = some 0) ∧
      (groupedTwo.goToParentCurrent 1 0).1.childrenOf 0 = [] ∧
      ∃ gp gp', groupedTwo.node? 0 = some gp ∧ (groupedTwo.goToParentCurrent 1 0).1.node? 0 = some gp' ∧
        gp'.data = gp.data.resetToSource.clearAllIndexes := by
  have hsome : (groupedTwo.node? 1).isSome = true := by decide +kernel
  have hp : (groupedTwo.goToParentCurrent 1 0).2 = some 0 := by decide +kernel
  obtain ⟨g, hg⟩ := Option.isSome_iff_exists.mp hsome
  exact ⟨reachable_groupedTwo, hsome, hp,
    goToParentCurrent_nearest id (fun _ => "") reachable_groupedTwo hg hp⟩

end Runs

end Groups

end TreeMan
