import Mathlib

/-!
# Finite maps as lists sorted by key

A `SortedMap K V` is a list of entries whose keys strictly increase: the
shape of an ordered map (`BTreeMap`), whose iteration follows the keys. The
structure carries the order of its keys, so every map built here is one.

What the models of this development need of such maps:

* `find?`, `alter` and their interaction (`find?_alter_self`,
  `find?_alter_ne`), with `alter` sorted in a single pass;
* `push`, which appends a value to the list of its key (`getD_push`), and a
  fold of `push` over any list (`getD_foldl_push`);
* `mergeAppend`, which joins two maps of lists key by key
  (`getD_mergeAppend`, `find?_isSome_mergeAppend`);
* `ofList`, the map collected from pairs (`mem_of_find?_ofList`,
  `mem_keys_ofList`);
* `mapValues`, which changes every value (`find?_mapValues`).
-/

/-- Entries with strictly increasing keys. -/
structure SortedMap (K V : Type*) [LinearOrder K] where
  entries : List (K × V)
  sorted : entries.Pairwise (fun a b => a.1 < b.1)

namespace SortedMap

variable {K V W : Type*} [LinearOrder K]

/-- The map without entries. -/
def empty : SortedMap K V := ⟨[], .nil⟩

/-- The keys, in increasing order. -/
def keys (m : SortedMap K V) : List K := m.entries.map (·.1)

/-- The value of `k` in a list of entries. -/
def findList (k : K) : List (K × V) → Option V
  | [] => none
  | e :: rest => if k = e.1 then some e.2 else findList k rest

/-- The value of `k` (`get`). -/
def find? (m : SortedMap K V) (k : K) : Option V := findList k m.entries

/-- The value of `k`, or `d` (`get(k).unwrap_or(d)`). -/
def getD (m : SortedMap K V) (k : K) (d : V) : V := (m.find? k).getD d

/-- Sets the value of `k` to `f` of its old value, in one pass that keeps the
keys sorted. -/
def alterList (k : K) (f : Option V → V) : List (K × V) → List (K × V)
  | [] => [(k, f none)]
  | e :: rest =>
    if k < e.1 then (k, f none) :: e :: rest
    else if k = e.1 then (k, f (some e.2)) :: rest
    else e :: alterList k f rest

theorem mem_keys_alterList {k k' : K} {f : Option V → V} {l : List (K × V)} :
    k' ∈ (alterList k f l).map (·.1) ↔ k' = k ∨ k' ∈ l.map (·.1) := by
  induction l with
  | nil => simp [alterList]
  | cons e rest ih =>
    simp only [alterList]
    split_ifs with h₁ h₂
    · simp
    · subst h₂; simp
    · simp only [List.map_cons, List.mem_cons, ih]; tauto

theorem sorted_alterList {k : K} {f : Option V → V} {l : List (K × V)}
    (hl : l.Pairwise (fun a b => a.1 < b.1)) :
    (alterList k f l).Pairwise (fun a b => a.1 < b.1) := by
  induction l with
  | nil => simp [alterList]
  | cons e rest ih =>
    rw [List.pairwise_cons] at hl
    simp only [alterList]
    split_ifs with h₁ h₂
    · exact List.Pairwise.cons (fun a ha => by
        rcases List.mem_cons.mp ha with rfl | ha
        · exact h₁
        · exact h₁.trans (hl.1 a ha)) (List.Pairwise.cons hl.1 hl.2)
    · subst h₂; exact List.Pairwise.cons hl.1 hl.2
    · refine List.Pairwise.cons (fun a ha => ?_) (ih hl.2)
      have hk : a.1 ∈ (alterList k f rest).map (·.1) := List.mem_map_of_mem ha
      rcases mem_keys_alterList.mp hk with h | h
      · rw [h]; exact lt_of_le_of_ne (not_lt.mp h₁) (Ne.symm h₂)
      · obtain ⟨b, hb, hba⟩ := List.mem_map.mp h
        rw [← hba]; exact hl.1 b hb

/-- `entry(k)` followed by an insert or an update. -/
def alter (m : SortedMap K V) (k : K) (f : Option V → V) : SortedMap K V :=
  ⟨alterList k f m.entries, sorted_alterList m.sorted⟩

theorem findList_eq_none_of_forall_lt {k : K} {l : List (K × V)} (h : ∀ e ∈ l, k < e.1) :
    findList k l = none := by
  induction l with
  | nil => rfl
  | cons e rest ih =>
    rw [findList, if_neg (ne_of_lt (h e (List.mem_cons_self ..))),
      ih fun e' he' => h e' (List.mem_cons_of_mem _ he')]

theorem findList_eq_none_of_lt {k : K} {e : K × V} {rest : List (K × V)}
    (hl : (e :: rest).Pairwise (fun a b => a.1 < b.1)) (hk : k < e.1) :
    findList k (e :: rest) = none := by
  refine findList_eq_none_of_forall_lt fun e' he' => ?_
  rcases List.mem_cons.mp he' with rfl | he'
  · exact hk
  · exact hk.trans ((List.pairwise_cons.mp hl).1 e' he')

theorem find?_alter_self (m : SortedMap K V) (k : K) (f : Option V → V) :
    (m.alter k f).find? k = some (f (m.find? k)) := by
  obtain ⟨l, hl⟩ := m
  simp only [find?, alter]
  induction l with
  | nil => simp [alterList, findList]
  | cons e rest ih =>
    simp only [alterList]
    split_ifs with h₁ h₂
    · rw [findList_eq_none_of_lt hl h₁]; simp [findList]
    · simp [findList, h₂]
    · simp [findList, h₂, ih (List.pairwise_cons.mp hl).2]

theorem find?_alter_ne (m : SortedMap K V) {k k' : K} (f : Option V → V) (h : k' ≠ k) :
    (m.alter k f).find? k' = m.find? k' := by
  obtain ⟨l, hl⟩ := m
  simp only [find?, alter]
  induction l with
  | nil => simp [alterList, findList, h]
  | cons e rest ih =>
    simp only [alterList]
    split_ifs with h₁ h₂
    · simp [findList, h]
    · subst h₂; simp [findList, h]
    · simp only [findList]; rw [ih (List.pairwise_cons.mp hl).2]

theorem find?_alter (m : SortedMap K V) (k k' : K) (f : Option V → V) :
    (m.alter k f).find? k' = if k' = k then some (f (m.find? k)) else m.find? k' := by
  split_ifs with h
  · subst h; exact find?_alter_self m k' f
  · exact find?_alter_ne m f h

@[simp] theorem find?_empty (k : K) : (empty : SortedMap K V).find? k = none := rfl

theorem mem_map_fst_iff_findList {k : K} {l : List (K × V)} :
    k ∈ l.map (·.1) ↔ (findList k l).isSome := by
  induction l with
  | nil => simp [findList]
  | cons e rest ih =>
    simp only [List.map_cons, List.mem_cons, findList]
    split_ifs with h
    · simp [h]
    · simp [h, ih]

theorem mem_keys_iff_find? {m : SortedMap K V} {k : K} : k ∈ m.keys ↔ (m.find? k).isSome :=
  mem_map_fst_iff_findList

theorem keys_sorted (m : SortedMap K V) : m.keys.Pairwise (· < ·) := by
  simpa [keys, List.pairwise_map] using m.sorted

/-- On sorted entries a key finds the value it is paired with: the entries
after the first of a key have larger keys. -/
theorem findList_eq_some_iff {k : K} {v : V} {l : List (K × V)}
    (hl : l.Pairwise (fun a b => a.1 < b.1)) : findList k l = some v ↔ (k, v) ∈ l := by
  induction l with
  | nil => simp [findList]
  | cons e rest ih =>
    rw [List.pairwise_cons] at hl
    simp only [findList, List.mem_cons]
    split_ifs with h
    · subst h
      have hnot : (e.1, v) ∉ rest := fun hm => lt_irrefl _ (hl.1 (e.1, v) hm)
      constructor
      · rintro ⟨⟩; exact .inl rfl
      · rintro (he | hm)
        · rw [← he]
        · exact absurd hm hnot
    · rw [ih hl.2]
      constructor
      · exact .inr
      · rintro (he | hm)
        · exact absurd (congrArg Prod.fst he) h
        · exact hm

/-- A key has a value exactly when the entries pair them. -/
theorem find?_eq_some_iff {m : SortedMap K V} {k : K} {v : V} :
    m.find? k = some v ↔ (k, v) ∈ m.entries :=
  findList_eq_some_iff m.sorted

/-! ## Grouping -/

/-- Appends `x` to the list of `k` (`entry(k).or_default().push(x)`). -/
def push (m : SortedMap K (List V)) (k : K) (x : V) : SortedMap K (List V) :=
  m.alter k fun o => o.getD [] ++ [x]

theorem getD_push (m : SortedMap K (List V)) (k k' : K) (x : V) :
    (m.push k x).getD k' [] = m.getD k' [] ++ if k' = k then [x] else [] := by
  simp only [getD, push, find?_alter]
  split_ifs with h
  · subst h; simp
  · simp

/-- Joins `b` into `a` key by key, appending `b`'s list to `a`'s. -/
def mergeAppend (a b : SortedMap K (List V)) : SortedMap K (List V) :=
  b.entries.foldl (fun m e => m.alter e.1 fun o => o.getD [] ++ e.2) a

theorem getD_foldl_alter_append (a : SortedMap K (List V)) {l : List (K × List V)}
    (hl : l.Pairwise (fun x y => x.1 < y.1)) (k : K) :
    (l.foldl (fun m e => m.alter e.1 fun o => o.getD [] ++ e.2) a).getD k [] =
      a.getD k [] ++ (findList k l).getD [] := by
  induction l generalizing a with
  | nil => simp [findList]
  | cons e rest ih =>
    rw [List.pairwise_cons] at hl
    rw [List.foldl_cons, ih _ hl.2]
    by_cases h : k = e.1
    · subst h
      simp [getD, find?_alter, findList, findList_eq_none_of_forall_lt hl.1]
    · simp [getD, find?_alter, findList, h]

theorem getD_mergeAppend (a b : SortedMap K (List V)) (k : K) :
    (mergeAppend a b).getD k [] = a.getD k [] ++ b.getD k [] :=
  getD_foldl_alter_append a b.sorted k

theorem find?_isSome_foldl_alter_append (a : SortedMap K (List V)) (l : List (K × List V)) (k : K) :
    ((l.foldl (fun m e => m.alter e.1 fun o => o.getD [] ++ e.2) a).find? k).isSome ↔
      (a.find? k).isSome ∨ (findList k l).isSome := by
  induction l generalizing a with
  | nil => simp [findList]
  | cons e rest ih =>
    rw [List.foldl_cons, ih]
    by_cases h : k = e.1 <;> simp [find?_alter, findList, h]

theorem find?_isSome_mergeAppend (a b : SortedMap K (List V)) (k : K) :
    ((mergeAppend a b).find? k).isSome ↔ (a.find? k).isSome ∨ (b.find? k).isSome :=
  find?_isSome_foldl_alter_append a b.entries k

/-- A value is counted once, under its own key, when the values are filtered
key by key over distinct keys. -/
theorem count_flatMap_filter {X β : Type*} [DecidableEq X] [DecidableEq β] (key : X → β)
    (xs : List X) {ks : List β} (hks : ks.Nodup) (y : X) :
    (ks.flatMap fun k => xs.filter fun x => key x = k).count y =
      if key y ∈ ks then xs.count y else 0 := by
  induction ks with
  | nil => simp
  | cons k ks ih =>
    rw [List.flatMap_cons, List.count_append, ih hks.of_cons]
    by_cases hk : key y = k
    · subst hk
      simp [(List.nodup_cons.mp hks).1]
    · have hnone : (xs.filter fun x => key x = k).count y = 0 :=
        List.count_eq_zero.mpr fun hm => hk (by simpa using (List.mem_filter.mp hm).2)
      simp [hnone, hk]

/-- Filtering a list key by key, over distinct keys that include every
value's, loses and repeats nothing. -/
theorem perm_flatMap_filter {X β : Type*} [DecidableEq X] [DecidableEq β] (key : X → β)
    (xs : List X) {ks : List β} (hks : ks.Nodup) (hall : ∀ x ∈ xs, key x ∈ ks) :
    (ks.flatMap fun k => xs.filter fun x => key x = k).Perm xs := by
  refine List.perm_iff_count.mpr fun y => ?_
  rw [count_flatMap_filter key xs hks]
  split_ifs with hy
  · rfl
  · exact (List.count_eq_zero.mpr fun hm => hy (hall y hm)).symm

/-! ## Maps collected from pairs -/

/-- Sets the value of `k` (`insert`). -/
def insert (m : SortedMap K V) (k : K) (v : V) : SortedMap K V := m.alter k fun _ => v

/-- The map of a list of pairs, inserted in order (`collect`): a later pair
of a key replaces an earlier one. -/
def ofList (l : List (K × V)) : SortedMap K V := l.foldl (fun m p => m.insert p.1 p.2) empty

theorem find?_insert (m : SortedMap K V) (k k' : K) (v : V) :
    (m.insert k v).find? k' = if k' = k then some v else m.find? k' := by
  rw [insert, find?_alter]

theorem mem_of_find?_foldl_insert {l : List (K × V)} {k : K} {v : V} (m : SortedMap K V)
    (h : (l.foldl (fun m p => m.insert p.1 p.2) m).find? k = some v) :
    (k, v) ∈ l ∨ m.find? k = some v := by
  induction l generalizing m with
  | nil => exact .inr h
  | cons p rest ih =>
    rcases ih _ h with hm | hm
    · exact .inl (List.mem_cons_of_mem _ hm)
    · rw [find?_insert] at hm
      split_ifs at hm with hk
      · cases hm
        subst hk
        exact .inl List.mem_cons_self
      · exact .inr hm

/-- A value of the collected map is the value of one of the pairs. -/
theorem mem_of_find?_ofList {l : List (K × V)} {k : K} {v : V} (h : (ofList l).find? k = some v) :
    (k, v) ∈ l :=
  (mem_of_find?_foldl_insert empty h).resolve_right (by simp)

theorem find?_foldl_insert_isSome (l : List (K × V)) (m : SortedMap K V) (k : K) :
    ((l.foldl (fun m p => m.insert p.1 p.2) m).find? k).isSome ↔
      (m.find? k).isSome ∨ k ∈ l.map (·.1) := by
  induction l generalizing m with
  | nil => simp
  | cons p rest ih =>
    rw [List.foldl_cons, ih, find?_insert]
    by_cases hk : k = p.1 <;> simp [hk]

/-- The keys of the collected map are the keys of the pairs. -/
theorem mem_keys_ofList {l : List (K × V)} {k : K} : k ∈ (ofList l).keys ↔ k ∈ l.map (·.1) := by
  rw [mem_keys_iff_find?, ofList, find?_foldl_insert_isSome]
  simp

/-! ## Folds of `push` and maps of values -/

/-- The list of a key after pushing `v x` under `k x` for each `x` of a list. -/
theorem getD_foldl_push {X : Type*} (k : X → K) (v : X → V) (m : SortedMap K (List V))
    (xs : List X) (key : K) :
    (xs.foldl (fun m x => m.push (k x) (v x)) m).getD key [] =
      m.getD key [] ++ (xs.filter (fun x => k x = key)).map v := by
  induction xs generalizing m with
  | nil => simp
  | cons x xs ih =>
    rw [List.foldl_cons, ih, getD_push, List.filter_cons]
    split_ifs with h₁ h₂ h₂ <;> simp_all

theorem find?_foldl_push_isSome {X : Type*} (k : X → K) (v : X → V) (m : SortedMap K (List V))
    (xs : List X) (key : K) :
    ((xs.foldl (fun m x => m.push (k x) (v x)) m).find? key).isSome ↔
      (m.find? key).isSome ∨ ∃ x ∈ xs, k x = key := by
  induction xs generalizing m with
  | nil => simp
  | cons x xs ih =>
    rw [List.foldl_cons, ih]
    simp only [push, find?_alter]
    split_ifs with h
    · subst h; simp
    · simp only [List.mem_cons, exists_eq_or_imp]; tauto

/-- Applies `f` to every value. -/
def mapValues (f : V → W) (m : SortedMap K V) : SortedMap K W :=
  ⟨m.entries.map (fun e => (e.1, f e.2)), by simpa [List.pairwise_map] using m.sorted⟩

theorem findList_map (f : V → W) (k : K) (l : List (K × V)) :
    findList k (l.map (fun e => (e.1, f e.2))) = (findList k l).map f := by
  induction l with
  | nil => rfl
  | cons e rest ih =>
    simp only [List.map_cons, findList]
    split_ifs <;> simp [ih]

@[simp] theorem find?_mapValues (f : V → W) (m : SortedMap K V) (k : K) :
    (m.mapValues f).find? k = (m.find? k).map f :=
  findList_map f k m.entries

end SortedMap
