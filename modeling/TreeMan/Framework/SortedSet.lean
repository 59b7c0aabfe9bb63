import Mathlib

/-!
# Finite sets as strictly increasing lists

A `SortedSet α` is a list that strictly increases: a finite set that iterates
in increasing order, as a compressed bitmap does. Two such sets with the same
members are equal (`ext`), so every operation is characterised by its
members (`mem_insert`, `mem_ofList`, `mem_inter`, `mem_union`, `mem_diff`,
`mem_symmDiff`, `mem_range`), and its list by its members and its order.
Folds of unions and differences over a family are characterised the same way
(`mem_foldl_union`, `mem_foldl_diff`).
-/

/-- A strictly increasing list. -/
structure SortedSet (α : Type*) [LinearOrder α] where
  toList : List α
  sorted : toList.Pairwise (· < ·)

namespace SortedSet

variable {α : Type*} [LinearOrder α]

instance : Membership α (SortedSet α) := ⟨fun s a => a ∈ s.toList⟩

theorem mem_def {s : SortedSet α} {a : α} : a ∈ s ↔ a ∈ s.toList := .rfl

instance (a : α) (s : SortedSet α) : Decidable (a ∈ s) :=
  inferInstanceAs (Decidable (a ∈ s.toList))

/-- Sets with the same members are equal. -/
@[ext] theorem ext {s t : SortedSet α} (h : ∀ a, a ∈ s ↔ a ∈ t) : s = t := by
  obtain ⟨l, hl⟩ := s
  obtain ⟨l', hl'⟩ := t
  congr
  exact List.Pairwise.eq_of_mem_iff hl hl' h

instance : DecidableEq (SortedSet α) := fun s t =>
  decidable_of_iff (s.toList = t.toList) (by
    constructor
    · intro h; cases s; cases t; congr
    · rintro rfl; rfl)

/-- The empty set. -/
def empty : SortedSet α := ⟨[], .nil⟩

@[simp] theorem not_mem_empty (a : α) : a ∉ (empty : SortedSet α) := by
  simp [mem_def, empty]

/-- Inserts `a` into a strictly increasing list. -/
def insertList (a : α) : List α → List α
  | [] => [a]
  | b :: rest => if a < b then a :: b :: rest else if a = b then b :: rest else b :: insertList a rest

theorem mem_insertList {a x : α} {l : List α} : x ∈ insertList a l ↔ x = a ∨ x ∈ l := by
  induction l with
  | nil => simp [insertList]
  | cons b rest ih =>
    simp only [insertList]
    split_ifs with h₁ h₂
    · simp
    · subst h₂; simp
    · simp only [List.mem_cons, ih]; tauto

theorem sorted_insertList {a : α} {l : List α} (hl : l.Pairwise (· < ·)) :
    (insertList a l).Pairwise (· < ·) := by
  induction l with
  | nil => simp [insertList]
  | cons b rest ih =>
    rw [List.pairwise_cons] at hl
    simp only [insertList]
    split_ifs with h₁ h₂
    · refine List.Pairwise.cons (fun x hx => ?_) (List.Pairwise.cons hl.1 hl.2)
      rcases List.mem_cons.mp hx with rfl | hx
      · exact h₁
      · exact h₁.trans (hl.1 x hx)
    · exact List.Pairwise.cons hl.1 hl.2
    · refine List.Pairwise.cons (fun x hx => ?_) (ih hl.2)
      rcases mem_insertList.mp hx with rfl | hx
      · exact lt_of_le_of_ne (not_lt.mp h₁) (Ne.symm h₂)
      · exact hl.1 x hx

/-- Adds a member. -/
def insert (a : α) (s : SortedSet α) : SortedSet α := ⟨insertList a s.toList, sorted_insertList s.sorted⟩

@[simp] theorem mem_insert {a x : α} {s : SortedSet α} : x ∈ s.insert a ↔ x = a ∨ x ∈ s :=
  mem_insertList

/-- The set of the members of a list (`from_iter`, `collect`). -/
def ofList (l : List α) : SortedSet α := l.foldl (fun s a => s.insert a) empty

theorem mem_foldl_insert {x : α} (l : List α) (s : SortedSet α) :
    x ∈ l.foldl (fun s a => s.insert a) s ↔ x ∈ s ∨ x ∈ l := by
  induction l generalizing s with
  | nil => simp
  | cons a rest ih => rw [List.foldl_cons, ih, mem_insert, List.mem_cons]; tauto

@[simp] theorem mem_ofList {x : α} {l : List α} : x ∈ ofList l ↔ x ∈ l := by
  simp [ofList, mem_foldl_insert]

/-- The members of both (`&`). -/
def inter (s t : SortedSet α) : SortedSet α := ⟨s.toList.filter (· ∈ t), s.sorted.filter _⟩

@[simp] theorem mem_inter {x : α} {s t : SortedSet α} : x ∈ s.inter t ↔ x ∈ s ∧ x ∈ t := by
  simp [inter, mem_def]

/-- The members of `s` not in `t` (`-`). -/
def diff (s t : SortedSet α) : SortedSet α := ⟨s.toList.filter (· ∉ t), s.sorted.filter _⟩

@[simp] theorem mem_diff {x : α} {s t : SortedSet α} : x ∈ s.diff t ↔ x ∈ s ∧ x ∉ t := by
  simp [diff, mem_def]

/-- The members of either (`|`). -/
def union (s t : SortedSet α) : SortedSet α := t.toList.foldl (fun s a => s.insert a) s

@[simp] theorem mem_union {x : α} {s t : SortedSet α} : x ∈ s.union t ↔ x ∈ s ∨ x ∈ t := by
  rw [union, mem_foldl_insert]; rfl

/-- The members of exactly one (`^`). -/
def symmDiff (s t : SortedSet α) : SortedSet α := (s.diff t).union (t.diff s)

@[simp] theorem mem_symmDiff {x : α} {s t : SortedSet α} :
    x ∈ s.symmDiff t ↔ (x ∈ s ∧ x ∉ t) ∨ (x ∈ t ∧ x ∉ s) := by
  simp [symmDiff]

/-- Whether there is no member (`is_empty`). -/
def isEmpty (s : SortedSet α) : Bool := s.toList.isEmpty

theorem isEmpty_iff {s : SortedSet α} : s.isEmpty = true ↔ ∀ a, a ∉ s := by
  simp [isEmpty, mem_def, List.isEmpty_iff, List.eq_nil_iff_forall_not_mem]

/-- A union of a family of sets, one at a time. -/
theorem mem_foldl_union {β : Type*} (f : β → SortedSet α) (ws : List β) (r : SortedSet α)
    (x : α) : x ∈ ws.foldl (fun acc w => acc.union (f w)) r ↔ x ∈ r ∨ ∃ w ∈ ws, x ∈ f w := by
  induction ws generalizing r with
  | nil => simp
  | cons w rest ih =>
    rw [List.foldl_cons, ih, mem_union]
    simp only [List.mem_cons, exists_eq_or_imp]
    tauto

/-- A family of sets taken away, one at a time. -/
theorem mem_foldl_diff {β : Type*} (f : β → SortedSet α) (ws : List β) (r : SortedSet α)
    (x : α) : x ∈ ws.foldl (fun acc w => acc.diff (f w)) r ↔ x ∈ r ∧ ∀ w ∈ ws, x ∉ f w := by
  induction ws generalizing r with
  | nil => simp
  | cons w rest ih =>
    rw [List.foldl_cons, ih, mem_diff]
    simp only [List.mem_cons, forall_eq_or_imp]
    tauto

end SortedSet

namespace SortedSet

/-- `0..n`. -/
def range (n : Nat) : SortedSet Nat := ⟨List.range n, List.pairwise_lt_range⟩

@[simp] theorem mem_range {x n : Nat} : x ∈ range n ↔ x < n := by
  simp [range, mem_def]

end SortedSet
