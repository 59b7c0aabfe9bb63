import Mathlib

/-!
# Rose trees and their traversals

A `Rose α` is a label with a list of subtrees. Three ways of listing its
labels meet in a program that walks a tree:

* `preorder`: parent first, then the children in order, as a recursive visit
  meets them;
* `revPreorder`: parent first, then the children last to first, which is
  what a depth-first search with an explicit stack lists when it pushes the
  children in order and pops the last one (`dfs`, `dfs_eq`);
* `maxLeaf f`: the largest `f` of a leaf, by recursion over the children.

`revPreorder_perm`: the two orders list the same labels. `le_maxLeaf` and
`exists_maxLeaf`: where `f` never falls from a parent to a child (`Rising`),
`maxLeaf f` is the largest `f` of any label.
-/

universe u

/-- A tree whose nodes have any number of ordered children. -/
inductive Rose (α : Type u) where
  | node (label : α) (children : List (Rose α))

namespace Rose

variable {α : Type u}

/-- The label of the root. -/
def label : Rose α → α
  | node a _ => a

/-- The subtrees of the root. -/
def children : Rose α → List (Rose α)
  | node _ ts => ts

mutual
/-- The labels, parent first, children in order. -/
def preorder : Rose α → List α
  | node a ts => a :: preorderList ts

/-- The labels of the trees of a list, tree after tree. -/
def preorderList : List (Rose α) → List α
  | [] => []
  | t :: ts => preorder t ++ preorderList ts
end

mutual
/-- The labels, parent first, children last to first. -/
def revPreorder : Rose α → List α
  | node a ts => a :: revPreorderList ts

/-- The labels of the trees of a list, last tree first. -/
def revPreorderList : List (Rose α) → List α
  | [] => []
  | t :: ts => revPreorderList ts ++ revPreorder t
end

theorem preorderList_eq (ts : List (Rose α)) : preorderList ts = ts.flatMap preorder := by
  induction ts with
  | nil => rfl
  | cons t ts ih => rw [preorderList, ih, List.flatMap_cons]

theorem revPreorderList_eq (ts : List (Rose α)) :
    revPreorderList ts = ts.reverse.flatMap revPreorder := by
  induction ts with
  | nil => rfl
  | cons t ts ih => simp [revPreorderList, ih]

@[simp] theorem preorder_node (a : α) (ts : List (Rose α)) :
    preorder (node a ts) = a :: ts.flatMap preorder := by
  rw [preorder, preorderList_eq]

@[simp] theorem revPreorder_node (a : α) (ts : List (Rose α)) :
    revPreorder (node a ts) = a :: ts.reverse.flatMap revPreorder := by
  rw [revPreorder, revPreorderList_eq]

@[simp] theorem label_node (a : α) (ts : List (Rose α)) : (node a ts).label = a := rfl

@[simp] theorem children_node (a : α) (ts : List (Rose α)) : (node a ts).children = ts := rfl

theorem preorder_ne_nil (t : Rose α) : preorder t ≠ [] := by
  cases t; simp

theorem label_mem_preorder (t : Rose α) : t.label ∈ preorder t := by
  cases t; simp

mutual
/-- Both orders list the same labels. -/
theorem revPreorder_perm : ∀ t : Rose α, (revPreorder t).Perm (preorder t)
  | node a ts => by
    rw [revPreorder, preorder]
    exact (revPreorderList_perm ts).cons a

theorem revPreorderList_perm : ∀ ts : List (Rose α), (revPreorderList ts).Perm (preorderList ts)
  | [] => .refl _
  | t :: ts => by
    rw [revPreorderList, preorderList]
    exact ((revPreorderList_perm ts).append (revPreorder_perm t)).trans List.perm_append_comm
end

/-! ### Depth-first search with a stack -/

/-- The search: the stack has its top first; each step pops a tree, lists
its label and pushes its children in order, so that the last is on top.
`fuel` bounds the steps. -/
def dfs : Nat → List (Rose α) → List α → List α
  | 0, _, acc => acc
  | _ + 1, [], acc => acc
  | n + 1, t :: stack, acc => dfs n (t.children.reverse ++ stack) (acc ++ [t.label])

/-- With a step for every label of the stack, the search lists each tree of
the stack in `revPreorder`, top first. Every tree has a label, so a stack of
no labels is empty when the steps run out. -/
theorem dfs_eq {n : Nat} {stack : List (Rose α)} {acc : List α}
    (hn : (stack.flatMap preorder).length ≤ n) :
    dfs n stack acc = acc ++ stack.flatMap revPreorder := by
  induction n generalizing stack acc with
  | zero =>
    have : stack = [] := by
      cases stack with
      | nil => rfl
      | cons t _ => simp [preorder_ne_nil t] at hn
    subst this
    simp [dfs]
  | succ n ih =>
    cases stack with
    | nil => simp [dfs]
    | cons t stack =>
      obtain ⟨a, ts⟩ := t
      have hlen : ((ts.reverse ++ stack).flatMap preorder).length ≤ n := by
        simp only [List.flatMap_cons, preorder_node, List.length_append, List.length_cons,
          List.flatMap_append, List.length_flatMap, List.map_reverse, List.sum_reverse] at hn ⊢
        omega
      simp only [dfs, children_node, label_node]
      rw [ih hlen]
      simp

/-! ### The largest value at a leaf -/

mutual
/-- The largest `f` of a leaf: `f` of the root when it has no children, else
the largest of the children's. -/
def maxLeaf (f : α → Nat) : Rose α → Nat
  | node a ts => (maxLeafList f ts).getD (f a)

/-- The largest `maxLeaf f` of the trees of a list; none for no trees. -/
def maxLeafList (f : α → Nat) : List (Rose α) → Option Nat
  | [] => none
  | t :: ts => some ((maxLeafList f ts).elim (maxLeaf f t) (max (maxLeaf f t)))
end

theorem maxLeafList_eq (f : α → Nat) (ts : List (Rose α)) :
    maxLeafList f ts = (ts.map (maxLeaf f)).max? := by
  induction ts with
  | nil => rfl
  | cons t ts ih => rw [maxLeafList, ih, List.map_cons, List.max?_cons]

@[simp] theorem maxLeaf_node (f : α → Nat) (a : α) (ts : List (Rose α)) :
    maxLeaf f (node a ts) = ((ts.map (maxLeaf f)).max?).getD (f a) := by
  rw [maxLeaf, maxLeafList_eq]

/-- `f` never falls from a parent to a child. -/
inductive Rising (f : α → Nat) : Rose α → Prop
  | node {a : α} {ts : List (Rose α)} :
      (∀ t ∈ ts, f a ≤ f t.label) → (∀ t ∈ ts, Rising f t) → Rising f (node a ts)

theorem Rising.children {f : α → Nat} {a : α} {ts : List (Rose α)}
    (h : Rising f (Rose.node a ts)) :
    ∀ t ∈ ts, f a ≤ f t.label ∧ Rising f t := by
  cases h with
  | node hle hr => exact fun t ht => ⟨hle t ht, hr t ht⟩

mutual
/-- Where `f` rises, no label has a larger `f` than `maxLeaf f`: a node with
children takes the largest `maxLeaf` of a list that is not empty. -/
theorem le_maxLeaf {f : α → Nat} : ∀ {t : Rose α}, Rising f t → ∀ b ∈ preorder t, f b ≤ maxLeaf f t
  | node a ts, hr, b, hb => by
    have hcs := hr.children
    rw [preorder] at hb
    rw [maxLeaf]
    cases ts with
    | nil =>
      simp only [preorderList, List.mem_singleton] at hb
      subst hb
      rfl
    | cons t ts =>
      have hrs : ∀ u ∈ t :: ts, Rising f u := fun u hu => (hcs u hu).2
      obtain ⟨m, hm⟩ : ∃ m, maxLeafList f (t :: ts) = some m := ⟨_, rfl⟩
      have hlist := le_maxLeafList hrs
      rw [hm, Option.getD_some] at hlist ⊢
      rcases List.mem_cons.mp hb with rfl | hb
      · have hlabel := hlist t.label
          (by rw [preorderList]; exact List.mem_append_left _ (label_mem_preorder t))
        exact (hcs t List.mem_cons_self).1.trans hlabel
      · exact hlist b hb

/-- The same for the trees of a list, against the largest of their `maxLeaf`s. -/
theorem le_maxLeafList {f : α → Nat} : ∀ {ts : List (Rose α)}, (∀ t ∈ ts, Rising f t) →
    ∀ b ∈ preorderList ts, f b ≤ (maxLeafList f ts).getD 0
  | [], _, b, hb => by simp [preorderList] at hb
  | t :: ts, hr, b, hb => by
    rw [preorderList] at hb
    rw [maxLeafList]
    cases hm : maxLeafList f ts with
    | none =>
      have hts : ts = [] := by
        cases ts with
        | nil => rfl
        | cons _ _ => simp [maxLeafList] at hm
      subst hts
      simp only [preorderList, List.append_nil] at hb
      exact le_maxLeaf (hr t List.mem_cons_self) b hb
    | some m =>
      simp only [Option.elim, Option.getD_some]
      rcases List.mem_append.mp hb with hb | hb
      · exact (le_maxLeaf (hr t List.mem_cons_self) b hb).trans (le_max_left _ _)
      · have := le_maxLeafList (fun u hu => hr u (List.mem_cons_of_mem _ hu)) b hb
        rw [hm, Option.getD_some] at this
        exact this.trans (le_max_right _ _)
end

mutual
/-- `maxLeaf f` is the `f` of some label. -/
theorem exists_maxLeaf (f : α → Nat) : ∀ t : Rose α, ∃ b ∈ preorder t, f b = maxLeaf f t
  | node a ts => by
    rw [preorder, maxLeaf]
    cases hm : maxLeafList f ts with
    | none => exact ⟨a, List.mem_cons_self, rfl⟩
    | some m =>
      obtain ⟨b, hb, hfb⟩ := exists_maxLeafList f ts m hm
      exact ⟨b, List.mem_cons_of_mem _ hb, hfb⟩

/-- The largest `maxLeaf f` of a list of trees is the `f` of one of their labels. -/
theorem exists_maxLeafList (f : α → Nat) : ∀ (ts : List (Rose α)) (m : Nat),
    maxLeafList f ts = some m → ∃ b ∈ preorderList ts, f b = m
  | [], _, hm => by simp [maxLeafList] at hm
  | t :: ts, m, hm => by
    rw [maxLeafList, Option.some_inj] at hm
    rw [preorderList]
    cases hr : maxLeafList f ts with
    | none =>
      rw [hr, Option.elim] at hm
      obtain ⟨b, hb, hfb⟩ := exists_maxLeaf f t
      exact ⟨b, List.mem_append_left _ hb, hfb.trans hm⟩
    | some r =>
      rw [hr, Option.elim] at hm
      rcases max_choice (maxLeaf f t) r with he | he
      · obtain ⟨b, hb, hfb⟩ := exists_maxLeaf f t
        exact ⟨b, List.mem_append_left _ hb, hfb.trans (he.symm.trans hm)⟩
      · obtain ⟨b, hb, hfb⟩ := exists_maxLeafList f ts r hr
        exact ⟨b, List.mem_append_right _ hb, hfb.trans (he.symm.trans hm)⟩
end

end Rose
