import Mathlib
import TreeMan.Impl.Filter

/-!
# Trees of groups (`group.rs`)

A `GroupData` is a node of a tree of groups: a key, the `FilterData` of its
rows, a `Weak` pointer to its parent, the map of its subgroups by key and
its depth. Groups live behind `Arc`s that the tree and the client share, so
the model keeps every group ever made in a heap (`Groups`), at its address,
and a pointer is an address. Nothing is freed: a group the client still
holds stays usable after its parent regroups, and the parent of a group of
the tree is alive, so `Weak::upgrade` of its pointer succeeds.

* `groupByWithIndexes` groups the current positions of a group by the key of
  their parent row. Rayon folds a map on each piece of the positions and
  joins the maps in order (`Split`, `groupIndices`); each key's positions,
  sorted, become a `from_indices` view, which the index creator may then call
  methods of (`IndexCreator`); the new groups are allocated and replace the
  subgroups map. `groupBy` has an index creator that does nothing.
* `clearSubgroups`, `goToParent`, `goToParentCurrent` and `goToRoot` clear
  subtrees, filters and indexes; the group-level filtering and index calls
  run on a group's data, which keeps the state a call leaves, also on error.
* `collectAllGroups` (a depth-first search with a stack), `totalGroupsCount`,
  `maxDepth` and `traverse` (recursions over the subgroups) and `getParents`,
  `getPath` (a walk up the parent pointers) read the tree. Their loops run on
  a fuel of the heap's size, which bounds every path of a tree of it.

`create_field_index_in_subgroups`, `create_field_index_recursive`,
`filter_subgroups`, `FilterGroup` and the parallel filtering macros, whose
effect on error depends on the order rayon runs them in, and the read-only
accessors of the subgroups map that nothing here uses, are not modelled.
-/

namespace TreeMan

/-- How rayon cuts a list into the consecutive pieces its threads fold: any
cut that keeps the order. -/
structure Split (α : Type) where
  cut : List α → List (List α)
  flatten_cut : ∀ l, (cut l).flatten = l

/-- One piece: a single thread folds the whole list. -/
def Split.whole {α : Type} : Split α := ⟨fun l => [l], fun l => by simp⟩

variable {K : Type} [LinearOrder K] {N : Numerics} {T : Type}
variable (lower : List Char → List Char) (opText : FieldOperation N → String)

/-- `index_creator`: a closure given each new group's `FilterData`, of which
it can only call methods; it leaves a state those calls reach, or fails. -/
structure IndexCreator (T : Type) where
  run : FilterData N T → Except GLobalError (FilterData N T)
  calls : ∀ s s', run s = .ok s' → Relation.ReflTransGen (Step lower opText) s s'

/-- The `|_| Ok(())` of `group_by`. -/
def IndexCreator.ok : IndexCreator lower opText T :=
  ⟨.ok, fun _ _ h => by cases h; exact .refl⟩

/-- `GroupData`. `parent` is the address behind the `Weak` pointer and
`subgroups` maps each key to the address of its group; `write_lock` only
orders the writes of the map. -/
structure GroupData (K : Type) [LinearOrder K] (N : Numerics) (T : Type) where
  key : K
  data : FilterData N T
  parent : Option Nat
  subgroups : SortedMap K Nat
  description : Option String
  depth : Nat

/-- Every group made so far, at its address. -/
structure Groups (K : Type) [LinearOrder K] (N : Numerics) (T : Type) where
  nodes : List (GroupData K N T)

namespace Groups

variable (h : Groups K N T)

/-- The group at an address. -/
def node? (a : Nat) : Option (GroupData K N T) := h.nodes[a]?

/-- The heap with the group at `a` changed by `f`. -/
def modify (a : Nat) (f : GroupData K N T → GroupData K N T) : Groups K N T :=
  ⟨h.nodes.modify a f⟩

/-- The subgroups of a group, in key order (`subgroups.values()`). -/
def childrenOf (a : Nat) : List Nat :=
  match h.node? a with
  | some g => g.subgroups.entries.map (·.2)
  | none => []

/-- The parent pointer of a group. -/
def parentOf (a : Nat) : Option Nat := (h.node? a).bind (·.parent)

/-- `depth()`. -/
def depthOf (a : Nat) : Nat := ((h.node? a).map (·.depth)).getD 0

/-- The heap with the data of the group at `a` set. -/
def setData (a : Nat) (data : FilterData N T) : Groups K N T :=
  h.modify a fun g => { g with data := data }

/-- `new_root`: one group, of every row, at address 0. -/
def newRoot (key : K) (data : List T) (description : String) : Groups K N T :=
  ⟨[{ key := key, data := FilterData.fromVec data, parent := none, subgroups := SortedMap.empty,
      description := some description, depth := 0 }]⟩

/-- `new_root_with_indexes`: the builder is given the `FilterData` of every
row and returns the root's. -/
def newRootWithIndexes (key : K) (data : List T) (description : String)
    (indexBuilder : FilterData N T → Except GLobalError (FilterData N T)) :
    Except GLobalError (Groups K N T) :=
  (indexBuilder (FilterData.fromVec data)).map fun d =>
    ⟨[{ key := key, data := d, parent := none, subgroups := SortedMap.empty,
        description := some description, depth := 0 }]⟩

/-! ### Grouping -/

/-- The map one thread folds from its piece of the positions:
`acc.entry(key).or_insert_with(..).push(idx)`, keyed by the parent row. A
position past the parent's rows panics first (`groupByWithIndexes`). -/
def groupPiece (parent : List T) (extractor : T → K) (piece : List Nat) :
    SortedMap K (List Nat) :=
  piece.foldl (fun acc idx =>
    match parent[idx]? with
    | some item => acc.push (extractor item) idx
    | none => acc) SortedMap.empty

/-- `fold` then `reduce`: the maps of the pieces, joined in their order,
each list appended to the one before. Rayon joins them in some bracketing;
`mergeAppend` appends key by key (`getD_mergeAppend`), so every bracketing
gives this map. -/
def groupIndices (parent : List T) (extractor : T → K) (pieces : List (List Nat)) :
    SortedMap K (List Nat) :=
  pieces.foldl (fun acc piece => acc.mergeAppend (groupPiece parent extractor piece))
    SortedMap.empty

/-- The data of the group of each key: `from_indices` of the sorted
positions (`sort_unstable`, which sorts numbers as a stable sort does), then
the index creator; the first error is the call's. -/
def makeChildren (parent : List T) (indexCreator : IndexCreator lower opText T)
    (grouped : List (K × List Nat)) : Except GLobalError (List (K × FilterData N T)) :=
  grouped.mapM fun p =>
    (indexCreator.run (FilterData.fromIndices parent p.2.mergeSort)).map (p.1, ·)

/-- `group_by_with_indexes`: the new groups are allocated after every
existing one and replace the subgroups map of the group; on error the map is
kept. A group a client holds is in the heap, so no address is missing in the
source; `parent_data[idx]` panics on a position past the parent's rows. -/
def groupByWithIndexes (a : Nat) (split : Split Nat) (extractor : T → K) (description : String)
    (indexCreator : IndexCreator lower opText T) : Outcome (Groups K N T) :=
  match h.node? a with
  | none => .ok h
  | some g =>
    match g.data.parentData with
    | none => .err .parentDataIsEmpty h
    | some parent =>
      let currentIndices := g.data.currentIndices
      if currentIndices.all (· < parent.length) then
        let grouped := groupIndices parent extractor (split.cut currentIndices)
        match makeChildren lower opText parent indexCreator grouped.entries with
        | .error err => .err err h
        | .ok children =>
          let newNodes := children.map fun p =>
            ({ key := p.1, data := p.2, parent := some a, subgroups := SortedMap.empty,
               description := some description, depth := g.depth + 1 } : GroupData K N T)
          let newSubgroups :=
            SortedMap.ofList (children.zipIdx.map fun p => (p.1.1, h.nodes.length + p.2))
          .ok ⟨(h.modify a fun g => { g with subgroups := newSubgroups }).nodes ++ newNodes⟩
      else .panic

/-- `group_by`. -/
def groupBy (a : Nat) (split : Split Nat) (extractor : T → K) (description : String) :
    Outcome (Groups K N T) :=
  h.groupByWithIndexes lower opText a split extractor description (IndexCreator.ok lower opText)

/-! ### Clearing and navigation -/

/-- `clear_subgroups`, with a fuel that bounds the depth: the subgroups the
map held are cleared first, then the map. -/
def clearSubgroupsFrom : Nat → Groups K N T → Nat → Groups K N T
  | 0, h, _ => h
  | fuel + 1, h, a =>
    let h' := (h.childrenOf a).foldl (fun h c => clearSubgroupsFrom fuel h c) h
    h'.modify a fun g => { g with subgroups := SortedMap.empty }

/-- `clear_subgroups`. -/
def clearSubgroups (a : Nat) : Groups K N T := clearSubgroupsFrom h.nodes.length h a

/-- `reset_filters`. -/
def resetFilters (a : Nat) : Groups K N T :=
  h.modify a fun g => { g with data := g.data.resetToSource }

/-- The data of the group at `a` changed by an infallible call. -/
def updateData (a : Nat) (f : FilterData N T → FilterData N T) : Groups K N T :=
  h.modify a fun g => { g with data := f g.data }

/-- What navigation does to each group of its path: `clear_subgroups`,
`reset_filters`, `clear_all_indexes`. -/
def cleanNode (a : Nat) : Groups K N T :=
  (h.clearSubgroups a).updateData a fun d => d.resetToSource.clearAllIndexes

/-- `clean_path_to_target`: every group of the path, in order. -/
def cleanPath (path : List Nat) : Groups K N T := path.foldl cleanNode h

/-- The loop of `get_parents`, from a parent pointer; `fuel` bounds the
steps. -/
def parentsFrom : Nat → Option Nat → List Nat
  | 0, _ => []
  | _ + 1, none => []
  | fuel + 1, some p => p :: parentsFrom fuel (h.parentOf p)

/-- `get_parents`: the parents up to the root, nearest first. The model's
`Weak::upgrade` always succeeds; the source's does on the way up from a
group of the tree, whose parents the tree holds. -/
def getParents (a : Nat) : List Nat := h.parentsFrom h.nodes.length (h.parentOf a)

/-- `get_path`: the keys from the root to the group. -/
def getPath (a : Nat) : List K :=
  match h.node? a with
  | none => []
  | some g => (g.key :: (h.getParents a).filterMap fun p => (h.node? p).map (·.key)).reverse

/-- `go_to_parent`: the parent, cleaned. -/
def goToParent (a : Nat) : Groups K N T × Option Nat :=
  match h.parentOf a with
  | none => (h, none)
  | some p => (h.cleanPath [p], some p)

/-- The parents up to the first of a key, if one has it. -/
def pathToKey (key : K) : List Nat → Option (List Nat)
  | [] => none
  | p :: ps =>
    if (h.node? p).map (·.key) = some key then some [p] else (pathToKey key ps).map (p :: ·)

/-- `go_to_parent_current`: the nearest parent of the key, with every group
on the way up to it cleaned. -/
def goToParentCurrent (a : Nat) (key : K) : Groups K N T × Option Nat :=
  match h.pathToKey key (h.getParents a) with
  | none => (h, none)
  | some path => (h.cleanPath path, path.getLast?)

/-- `go_to_root`: the group and all its parents cleaned, the root returned
(the last group of the walk, which for a group of the tree is the root). -/
def goToRoot (a : Nat) : Groups K N T × Nat :=
  let path := a :: h.getParents a
  (h.cleanPath path, path.getLast (List.cons_ne_nil _ _))

/-! ### Calls on a group's data -/

/-- A call on the `FilterData` of the group at `a`; the group keeps the
state it leaves, on error too (the data is shared, and mutated in place). -/
def dataCall (a : Nat) (f : FilterData N T → Outcome (FilterData N T)) : Outcome (Groups K N T) :=
  match h.node? a with
  | none => .ok h
  | some g =>
    match f g.data with
    | .ok s => .ok (h.setData a s)
    | .err e s => .err e (h.setData a s)
    | .panic => .panic

/-- `filter`, `filter_by_field_ops`, `filter_by_fields_ops`,
`search_with_text` and `search_complex_words_text` of a group: the call on
its data, then `items()`. -/
def filtering (a : Nat) (call : FilteringCall N T) : Outcome (Groups K N T) :=
  h.dataCall a fun s =>
    match call.run lower opText s with
    | .ok s => .ok s.items.2
    | .err e s => .err e s
    | .panic => .panic

/-! ### Reading the tree -/

/-- The loop of `collect_all_groups`: the stack has its top first; a group
popped is listed and its subgroups pushed in key order, the last on top. -/
def collectLoop : Nat → List Nat → List Nat → List Nat
  | 0, _, result => result
  | _ + 1, [], result => result
  | fuel + 1, node :: stack, result =>
    collectLoop fuel ((h.childrenOf node).reverse ++ stack) (result ++ [node])

/-- `collect_all_groups`. -/
def collectAllGroups (a : Nat) : List Nat := h.collectLoop (h.nodes.length + 1) [a] []

/-- `total_groups_count`, with a fuel that bounds the depth. -/
def countFrom : Nat → Nat → Nat
  | 0, _ => 1
  | fuel + 1, a => 1 + ((h.childrenOf a).map (countFrom fuel)).sum

/-- `total_groups_count`. -/
def totalGroupsCount (a : Nat) : Nat := h.countFrom h.nodes.length a

/-- `max_depth`, with a fuel that bounds the depth. -/
def maxDepthFrom : Nat → Nat → Nat
  | 0, a => h.depthOf a
  | fuel + 1, a =>
    if (h.childrenOf a).isEmpty then h.depthOf a
    else (((h.childrenOf a).map (maxDepthFrom fuel)).max?).getD (h.depthOf a)

/-- `max_depth`. -/
def maxDepth (a : Nat) : Nat := h.maxDepthFrom h.nodes.length a

/-- The groups `traverse` calls its callback on, in order, with a fuel that
bounds the depth. -/
def traverseFrom : Nat → Nat → List Nat
  | 0, a => [a]
  | fuel + 1, a => a :: (h.childrenOf a).flatMap (traverseFrom fuel)

/-- `traverse`. -/
def traverse (a : Nat) : List Nat := h.traverseFrom h.nodes.length a

end Groups

/-! ### The calls of a client -/

/-- The calls of `GroupData` that change the tree or a group, each on the
group at some address. -/
inductive GroupCall (K : Type) (T : Type)
  | groupByWithIndexes (split : Split Nat) (extractor : T → K) (description : String)
      (indexCreator : IndexCreator lower opText T)
  | filtering (call : FilteringCall N T)
  | resetFilters
  | createFieldIndex (name : String) (ty : FieldType) (extractor : T → ty.Carrier N)
  | createTextIndex (name : String) (extractor : T → List Char)
  | clearAllIndexes
  | clearFieldIndexes
  | clearTextIndexes
  | clearSubgroups
  | goToParent
  | goToParentCurrent (key : K)
  | goToRoot

/-- A call, on the group at `a`. -/
def GroupCall.run (h : Groups K N T) (a : Nat) : GroupCall lower opText K T → Outcome (Groups K N T)
  | .groupByWithIndexes split extractor description indexCreator =>
    h.groupByWithIndexes lower opText a split extractor description indexCreator
  | .filtering call => h.filtering lower opText a call
  | .resetFilters => .ok (h.resetFilters a)
  | .createFieldIndex name ty extractor => h.dataCall a (·.createFieldIndex name ty extractor)
  | .createTextIndex name extractor => h.dataCall a (·.createTextIndex lower name extractor)
  | .clearAllIndexes => .ok (h.updateData a FilterData.clearAllIndexes)
  | .clearFieldIndexes => .ok (h.updateData a FilterData.clearFiledIndex)
  | .clearTextIndexes => .ok (h.updateData a FilterData.clearTextIndexes)
  | .clearSubgroups => .ok (h.clearSubgroups a)
  | .goToParent => .ok (h.goToParent a).1
  | .goToParentCurrent key => .ok (h.goToParentCurrent a key).1
  | .goToRoot => .ok (h.goToRoot a).1

namespace Groups

/-- One call, successful or not, on some group. -/
def Step (h h' : Groups K N T) : Prop :=
  ∃ a, ∃ c : GroupCall lower opText K T, c.run lower opText h a = .ok h' ∨
    ∃ e, c.run lower opText h a = .err e h'

/-- The heap of `new_root`. -/
def Initial (h : Groups K N T) : Prop := ∃ key data description, h = newRoot key data description

/-- The heaps a run of calls reaches from `new_root`. -/
def Reachable : Groups K N T → Prop := Transition.Reachable Initial (Step lower opText)

end Groups

end TreeMan
