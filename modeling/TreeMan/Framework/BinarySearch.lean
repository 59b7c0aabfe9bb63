import Mathlib

/-!
# Branch-free binary search

The binary search of the Rust standard library from 1.82 on
(`slice::binary_search_by`): the loop halves `size` until one candidate is
left and never stops early; `base` moves to the midpoint whenever the midpoint
does not compare `Greater`. On positions that compare `Less* Equal* Greater*`
it therefore answers `Ok` with the *last* `Equal` position, or `Err` with the
insertion point (`search_eq_of_partitioned`).

For lists sorted by a key, the positions below a threshold form a prefix
whose length is a `countP` (`getElem_iff_lt_countP`, `take_countP_eq_filter`,
`drop_countP_eq_filter`), which is what `binarySearchBy_compare` computes.

## Main results

- `search_eq_of_partitioned`: the answer on partitioned positions.
- `binarySearchBy_compare`: the answer on a list sorted by a key.
- `slice_countP_eq_filter`: a slice between two such positions is a filter.
-/

namespace BinarySearch

/-- The loop: `base` moves to the midpoint unless it compares `.gt`, and
`size` loses half of itself, until one candidate is left. -/
def loop (cmp : Nat → Ordering) : (fuel base size : Nat) → Nat
  | 0, base, _ => base
  | fuel + 1, base, size =>
    if 1 < size then
      let half := size / 2
      let mid := base + half
      loop cmp fuel (if cmp mid = .gt then base else mid) (size - half)
    else base

/-- `binary_search_by` over the positions `0..n`: `.ok i` is `Ok(i)` and
`.error i` is `Err(i)`. The loop runs at most `n` times. -/
def search (n : Nat) (cmp : Nat → Ordering) : Except Nat Nat :=
  if n = 0 then .error 0
  else
    let base := loop cmp n 0 n
    match cmp base with
    | .eq => .ok base
    | .lt => .error (base + 1)
    | .gt => .error base

/-- Positions `0..n` compare `.lt` below `lt`, `.gt` from `le` on, and `.eq`
in between. -/
structure Partitioned (cmp : Nat → Ordering) (n lt le : Nat) : Prop where
  lt_le : lt ≤ le
  le_n : le ≤ n
  lt_iff : ∀ i < n, cmp i = .lt ↔ i < lt
  gt_iff : ∀ i < n, cmp i = .gt ↔ le ≤ i

section Loop

variable {cmp : Nat → Ordering} {n lt le : Nat}

/-- The loop invariant: the last position that is not `.gt` (`le - 1`) lies
in `[base, base + size)`, or there is none and `base = 0`. -/
def Inv (n le base size : Nat) : Prop :=
  1 ≤ size ∧ base + size ≤ n ∧ (base < le ∨ base = 0) ∧ le ≤ base + size

/-- A halving step keeps the invariant: a midpoint that is `.gt` lies past
every position that is not. -/
theorem inv_step (hp : Partitioned cmp n lt le) {base size : Nat}
    (hi : Inv n le base size) (hs : 1 < size) :
    Inv n le (if cmp (base + size / 2) = .gt then base else base + size / 2)
      (size - size / 2) := by
  obtain ⟨h1, hn, hb, hle⟩ := hi
  have hmid : base + size / 2 < n := by omega
  split_ifs with hc
  · have := (hp.gt_iff _ hmid).mp hc
    exact ⟨by omega, by omega, hb, by omega⟩
  · have := mt (hp.gt_iff _ hmid).mpr hc
    exact ⟨by omega, by omega, .inl (by omega), by omega⟩

/-- With enough fuel the loop ends on one candidate: the last position that
is not `.gt`, or `0` when every position is `.gt`. -/
theorem loop_spec (hp : Partitioned cmp n lt le) :
    ∀ (fuel base size : Nat), Inv n le base size → size ≤ fuel + 1 →
      loop cmp fuel base size < n ∧
        (loop cmp fuel base size < le ∨ loop cmp fuel base size = 0) ∧
        le ≤ loop cmp fuel base size + 1 := by
  intro fuel
  induction fuel with
  | zero =>
    intro base size hi hs
    obtain ⟨h1, hn, hb, hle⟩ := hi
    simp only [loop]
    exact ⟨by omega, hb, by omega⟩
  | succ fuel ih =>
    intro base size hi hs
    by_cases h : 1 < size
    · simp only [loop, if_pos h]
      exact ih _ _ (inv_step hp hi h) (by omega)
    · obtain ⟨h1, hn, hb, hle⟩ := hi
      simp only [loop, if_neg h]
      exact ⟨by omega, hb, by omega⟩

/-- On partitioned positions `search` finds the last `.eq` position, or
reports the insertion point when there is none. -/
theorem search_eq_of_partitioned (hp : Partitioned cmp n lt le) :
    search n cmp = if lt < le then .ok (le - 1) else .error lt := by
  unfold search
  by_cases hn : n = 0
  · have := hp.le_n
    have := hp.lt_le
    simp only [if_pos hn]
    rw [if_neg (by omega)]
    congr 1
    omega
  · rw [if_neg hn]
    have hinv : Inv n le 0 n := ⟨by omega, by omega, by omega, by simpa using hp.le_n⟩
    obtain ⟨hb, hlo, hhi⟩ := loop_spec hp n 0 n hinv (by omega)
    have hlt := hp.lt_iff (loop cmp n 0 n) hb
    have hgt := hp.gt_iff (loop cmp n 0 n) hb
    have := hp.lt_le
    simp only
    cases hc : cmp (loop cmp n 0 n) with
    | eq =>
      simp only [hc, reduceCtorEq, false_iff, not_lt] at hlt hgt
      rw [if_pos (by omega)]
      dsimp only
      congr 1
      omega
    | lt =>
      simp only [hc, reduceCtorEq, true_iff, false_iff, not_le] at hlt hgt
      rw [if_neg (by omega)]
      dsimp only
      congr 1
      omega
    | gt =>
      simp only [hc, reduceCtorEq, true_iff, false_iff] at hlt hgt
      rw [if_neg (by omega)]
      dsimp only
      congr 1
      omega

end Loop

section Lists

variable {α : Type*}

/-- `binary_search_by` on a list. -/
def binarySearchBy (l : List α) (f : α → Ordering) : Except Nat Nat :=
  search l.length (fun i => (l[i]?).elim .gt f)

variable {p : α → Bool}

/-- Where `p` holds only on a prefix, the `i`-th element satisfies `p` exactly
when `i` is below the number of elements that do: after an element that
fails `p`, none satisfies it. -/
theorem getElem_iff_lt_countP {l : List α} (hl : l.Pairwise (fun a b => p b → p a))
    (i : Nat) (hi : i < l.length) : p l[i] ↔ i < l.countP p := by
  induction l generalizing i with
  | nil => simp at hi
  | cons a rest ih =>
    rw [List.pairwise_cons] at hl
    by_cases ha : p a
    · cases i with
      | zero => simp [ha]
      | succ i =>
        simp only [List.getElem_cons_succ, List.countP_cons, ha, if_true]
        rw [ih hl.2 i (by simpa using hi)]
        omega
    · have hnone : ∀ x ∈ rest, p x = false := fun x hx => by
        by_contra hx'
        exact ha (hl.1 x hx (by simpa using hx'))
      have hzero : rest.countP p = 0 := List.countP_eq_zero.mpr (by simpa using hnone)
      cases i with
      | zero => simp [ha, hzero]
      | succ i => simp [ha, hzero, hnone _ (List.getElem_mem _)]

theorem take_countP_eq_filter {l : List α} (hl : l.Pairwise (fun a b => p b → p a)) :
    l.take (l.countP p) = l.filter p := by
  induction l with
  | nil => rfl
  | cons a rest ih =>
    rw [List.pairwise_cons] at hl
    by_cases ha : p a
    · simp [ha, ih hl.2]
    · have hnone : ∀ x ∈ rest, ¬p x := fun x hx hx' => ha (hl.1 x hx hx')
      simp [ha, List.countP_eq_zero.mpr hnone, List.filter_eq_nil_iff.mpr hnone]

theorem drop_countP_eq_filter {l : List α} (hl : l.Pairwise (fun a b => p b → p a)) :
    l.drop (l.countP p) = l.filter (fun x => !p x) := by
  induction l with
  | nil => rfl
  | cons a rest ih =>
    rw [List.pairwise_cons] at hl
    by_cases ha : p a
    · simp [ha, ih hl.2]
    · have hnone : ∀ x ∈ rest, ¬p x := fun x hx hx' => ha (hl.1 x hx hx')
      have hall : rest.filter (fun x => !p x) = rest :=
        List.filter_eq_self.mpr fun x hx => by simpa using hnone x hx
      simp [ha, List.countP_eq_zero.mpr hnone, hall]

/-- The elements between two prefixes: `take` up to the end of the
`q`-prefix and `drop` the `p`-prefix, or nothing when the `p`-prefix is the
longer one, are those in the `q`-prefix and not in the `p`-prefix. The two
prefixes are nested, one way or the other; when the `q`-prefix is the inner
one, the slice is empty. -/
theorem slice_countP_eq_filter {l : List α} {p q : α → Bool}
    (hp : l.Pairwise (fun a b => p b → p a)) (hq : l.Pairwise (fun a b => q b → q a))
    (hpq : (∀ x ∈ l, p x → q x) ∨ (∀ x ∈ l, q x → p x)) :
    (if l.countP q ≤ l.countP p then [] else (l.take (l.countP q)).drop (l.countP p)) =
      l.filter (fun x => q x && !p x) := by
  rcases hpq with hpq | hqp
  · have hcount : l.countP p = (l.filter q).countP p := by
      rw [List.countP_filter]
      exact List.countP_congr fun x hx => by
        constructor
        · intro h; simp [h, hpq x hx h]
        · intro h; simp at h; exact h.1
    have hslice : (l.take (l.countP q)).drop (l.countP p) = l.filter (fun x => q x && !p x) := by
      rw [take_countP_eq_filter hq, hcount,
        drop_countP_eq_filter (List.pairwise_filter.mpr (hp.imp fun h _ _ => h)),
        List.filter_filter]
      exact List.filter_congr fun x _ => Bool.and_comm _ _
    split_ifs with h
    · have hle : l.countP p ≤ l.countP q := List.countP_mono_left fun x hx h => hpq x hx h
      have hz : (l.filter (fun x => q x && !p x)).length = 0 := by
        have := congrArg List.length hslice
        simp only [List.length_drop, List.length_take] at this
        omega
      exact (List.eq_nil_of_length_eq_zero hz).symm
    · exact hslice
  · have hle : l.countP q ≤ l.countP p := List.countP_mono_left fun x hx h => hqp x hx h
    rw [if_pos hle]
    refine (List.filter_eq_nil_iff.mpr fun x hx h => ?_).symm
    simp only [Bool.and_eq_true, Bool.not_eq_true'] at h
    simp [hqp x hx h.1] at h

variable {β : Type*} [LinearOrder β]

/-- In a list sorted by `key`, the elements whose key lies below (or not
above) a threshold form a prefix. -/
theorem pairwise_prefix_of_sorted {key : α → β} {l : List α}
    (hl : l.Pairwise (fun a b => key a ≤ key b)) {q : β → Prop} [DecidablePred q]
    (hq : ∀ x y, x ≤ y → q y → q x) :
    l.Pairwise (fun a b => decide (q (key b)) → decide (q (key a))) :=
  hl.imp fun hab hb => by simpa using hq _ _ hab (by simpa using hb)

/-- Two predicates closed downwards along a key are nested on any list: the
prefixes they cut from a sorted list are comparable. -/
theorem nested_of_downClosed {key : α → β} {p q : α → Bool}
    (hp : ∀ a b, key a ≤ key b → p b → p a) (hq : ∀ a b, key a ≤ key b → q b → q a)
    (l : List α) : (∀ x ∈ l, p x → q x) ∨ (∀ x ∈ l, q x → p x) := by
  by_contra h
  simp only [not_or, not_forall, Bool.not_eq_true, exists_prop] at h
  obtain ⟨⟨x, -, hpx, hqx⟩, ⟨y, -, hqy, hpy⟩⟩ := h
  rcases le_total (key x) (key y) with hxy | hyx
  · simp [hq x y hxy hqy] at hqx
  · simp [hp y x hyx hpx] at hpy

/-- On a list sorted by `key`, comparing keys with `t` finds the last element
whose key equals `t`, or the number of keys below `t`. -/
theorem binarySearchBy_compare (key : α → β) (t : β) (l : List α)
    (hl : l.Pairwise (fun a b => key a ≤ key b)) :
    binarySearchBy l (fun x => compare (key x) t) =
      if l.countP (fun x => key x < t) < l.countP (fun x => key x ≤ t)
      then .ok (l.countP (fun x => key x ≤ t) - 1)
      else .error (l.countP (fun x => key x < t)) := by
  have hlt := getElem_iff_lt_countP
    (pairwise_prefix_of_sorted hl (q := (· < t)) fun _ _ h h' => lt_of_le_of_lt h h')
  have hle := getElem_iff_lt_countP
    (pairwise_prefix_of_sorted hl (q := (· ≤ t)) fun _ _ h h' => le_trans h h')
  refine search_eq_of_partitioned ⟨?_, ?_, fun i hi => ?_, fun i hi => ?_⟩
  · exact List.countP_mono_left fun x _ h => by simpa using le_of_lt (by simpa using h)
  · exact List.countP_le_length
  · simp only [List.getElem?_eq_getElem hi, Option.elim_some, compare_lt_iff_lt]
    simpa using hlt i hi
  · simp only [List.getElem?_eq_getElem hi, Option.elim_some, compare_gt_iff_gt]
    have := hle i hi
    simp only [decide_eq_true_eq] at this
    rw [← not_le, this, not_lt]

end Lists

end BinarySearch
