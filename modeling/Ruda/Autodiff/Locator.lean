import Ruda.Autodiff.Traversal

/-!
# Which graph a node is in

The locator maps every node to its graph, and keeps for the node that a graph was made for,
its origin, the nodes that were added under it. A registration whose parents are in several
graphs merges them.
-/

namespace Ruda.Autodiff

/-- A handle to a graph. -/
abbrev GraphId := Nat

/-- A graph with the lock around its steps. -/
structure Graph where
  origin : Nat
  owner : Option Nat
  steps : Steps

structure GraphLocator where
  graphs : BTreeMap GraphId
  keys : BTreeMap (Finset Nat)

inductive GraphAnalysis
  | noCollision (graph : GraphId)
  | newGraph
  | collisions (graphs : List GraphId)
  deriving DecidableEq

namespace GraphLocator

variable (l : GraphLocator) (heap : GraphId → Graph)

def registerKey (origin key : Nat) : GraphLocator :=
  let set := l.keys[origin]?.getD ∅
  { l with keys := l.keys.insert origin (if origin ≠ key then insert key set else set) }

/-- The map from origins to graphs, after `graphs.insert(graph.origin, graph)`. -/
def insertByOrigin (found : List GraphId) (graph : GraphId) : List GraphId :=
  found.filter (fun g => (heap g).origin ≠ (heap graph).origin) ++ [graph]

/-- The graphs of the node and of its parents, by their origins. -/
def found (node : Nat) (parents : List Parent) : List GraphId :=
  ((node :: parents.map Parent.id).filterMap fun n => l.graphs[n]?).foldl (insertByOrigin heap) []

def analyse (node : Nat) (parents : List Parent) : GraphAnalysis :=
  if parents = [] then
    match l.graphs[node]? with
    | some graph => .noCollision graph
    | none => .newGraph
  else
    match l.found heap node parents with
    | [] => .newGraph
    | [graph] => .noCollision graph
    | graphs => .collisions graphs

/-- `new_graph`, with the handle that the new graph gets. -/
def newGraph (origin : Nat) (fresh : GraphId) : GraphLocator :=
  { graphs := l.graphs.insert origin fresh, keys := l.keys.insert origin ∅ }

/-- `select` when one graph was found. -/
def keep (node : Nat) (graph : GraphId) : GraphLocator :=
  if (heap graph).origin ≠ node then
    ({ l with graphs := l.graphs.insert node graph } : GraphLocator).registerKey (heap graph).origin node
  else l

/-- The entries that `merge_two` changes: the origin and the keys of the merged graph. -/
def remap (main merged : GraphId) : GraphLocator :=
  let graphs := l.graphs.insert (heap merged).origin main
  match l.keys[(heap merged).origin]? with
  | none => { l with graphs }
  | some moved =>
    let keys := l.keys.erase (heap merged).origin
    { graphs := (moved.sort (· ≤ ·)).foldl (fun graphs k => graphs.insert k main) graphs
      keys := keys.insert (heap main).origin (keys[(heap main).origin]?.getD ∅ ∪ moved) }

/-- The last entries of `merge`. -/
def join (node : Nat) (main : GraphId) : GraphLocator :=
  { l with graphs := (l.graphs.insert (heap main).origin main).insert node main }

def removeEntry (node : Nat) : GraphLocator :=
  match l.graphs[node]? with
  | none => l
  | some graph =>
    let graphs := l.graphs.erase node
    match l.keys[(heap graph).origin]? with
    | none => { l with graphs }
    | some entry =>
      if entry.erase node = ∅ then { graphs, keys := l.keys.erase (heap graph).origin }
      else { graphs, keys := l.keys.insert (heap graph).origin (entry.erase node) }

def removeEntries (nodes : List Nat) : GraphLocator := nodes.foldl (fun l node => l.removeEntry heap node) l

-- Where a node is after each operation

variable {l : GraphLocator} {heap : GraphId → Graph}

/-- The nodes that go over to the main graph with the merged one. -/
def Moved (l : GraphLocator) (heap : GraphId → Graph) (merged : GraphId) (n : Nat) : Prop :=
  n = (heap merged).origin ∨ n ∈ l.keys[(heap merged).origin]?.getD ∅

instance (merged : GraphId) (n : Nat) : Decidable (l.Moved heap merged n) := by
  unfold Moved
  infer_instance

@[simp] theorem registerKey_graphs (origin key : Nat) : (l.registerKey origin key).graphs = l.graphs := rfl

@[simp] theorem newGraph_graphs (origin n : Nat) (fresh : GraphId) :
    (l.newGraph origin fresh).graphs[n]? = if n = origin then some fresh else l.graphs[n]? := by
  simp [newGraph]

theorem keep_graphs {node : Nat} {graph : GraphId} (n : Nat) :
    (l.keep heap node graph).graphs[n]? = if n = node ∧ (heap graph).origin ≠ node then some graph else l.graphs[n]? := by
  unfold keep
  split
  · next h => simp [h]
  · next h => simp [h]

theorem get_foldl_insert {main : GraphId} (keys : List Nat) (graphs : BTreeMap GraphId) (n : Nat) :
    (keys.foldl (fun graphs k => graphs.insert k main) graphs)[n]? = if n ∈ keys then some main else graphs[n]? := by
  induction keys generalizing graphs with
  | nil => simp
  | cons k keys ih =>
    rw [List.foldl_cons, ih, BTreeMap.get_insert]
    by_cases hk : n ∈ keys <;> simp [hk]

theorem remap_graphs {main merged : GraphId} (n : Nat) :
    (l.remap heap main merged).graphs[n]? = if l.Moved heap merged n then some main else l.graphs[n]? := by
  unfold remap Moved
  split
  · next h => simp [h]
  · next moved h =>
    rw [get_foldl_insert, BTreeMap.get_insert]
    simp only [Finset.mem_sort, h, Option.getD_some]
    by_cases hn : n ∈ moved <;> simp [hn]

@[simp] theorem join_graphs {node : Nat} {main : GraphId} (n : Nat) :
    (l.join heap node main).graphs[n]? =
      if n = node ∨ n = (heap main).origin then some main else l.graphs[n]? := by
  simp only [join, BTreeMap.get_insert]
  by_cases hn : n = node <;> simp [hn]

theorem removeEntry_graphs (node n : Nat) :
    (l.removeEntry heap node).graphs[n]? = if n = node then none else l.graphs[n]? := by
  unfold removeEntry
  split
  · next h =>
    split
    · next hn => rw [hn, h]
    · rfl
  · split
    · simp
    · split <;> simp

theorem removeEntries_graphs (nodes : List Nat) (n : Nat) :
    (l.removeEntries heap nodes).graphs[n]? = if n ∈ nodes then none else l.graphs[n]? := by
  unfold removeEntries
  induction nodes generalizing l with
  | nil => simp
  | cons node nodes ih =>
    rw [List.foldl_cons, ih, removeEntry_graphs]
    by_cases hn : n ∈ nodes <;> simp [hn]

-- The graphs of a node and of its parents

theorem mem_insertByOrigin {found : List GraphId} {graph g : GraphId} (h : g ∈ insertByOrigin heap found graph) :
    g ∈ found ∨ g = graph := by
  simp only [insertByOrigin, List.mem_append, List.mem_filter, List.mem_singleton] at h
  exact h.imp_left And.left

theorem insertByOrigin_nodup {found : List GraphId} (graph : GraphId)
    (h : (found.map fun g => (heap g).origin).Nodup) :
    ((insertByOrigin heap found graph).map fun g => (heap g).origin).Nodup := by
  rw [insertByOrigin, List.map_append]
  refine List.nodup_append.mpr ⟨h.sublist (List.filter_sublist.map _), List.nodup_singleton _, ?_⟩
  rintro o ho _ hm rfl
  obtain ⟨g, hg, rfl⟩ := List.mem_map.mp ho
  have hne := (List.mem_filter.mp hg).2
  simp only [decide_eq_true_eq] at hne
  exact hne (by simpa using hm)

theorem foldl_insertByOrigin (graphs found : List GraphId) (h : (found.map fun g => (heap g).origin).Nodup) :
    ((graphs.foldl (insertByOrigin heap) found).map fun g => (heap g).origin).Nodup ∧
      ∀ g ∈ graphs.foldl (insertByOrigin heap) found, g ∈ found ∨ g ∈ graphs := by
  induction graphs generalizing found with
  | nil => exact ⟨h, fun g hg => .inl hg⟩
  | cons graph graphs ih =>
    obtain ⟨hnodup, hmem⟩ := ih _ (insertByOrigin_nodup graph h)
    refine ⟨hnodup, fun g hg => ?_⟩
    rcases hmem g hg with hin | hin
    · rcases mem_insertByOrigin hin with hin | rfl
      · exact .inl hin
      · exact .inr List.mem_cons_self
    · exact .inr (List.mem_cons_of_mem _ hin)

theorem found_nodup (node : Nat) (parents : List Parent) : (l.found heap node parents).Nodup :=
  (foldl_insertByOrigin _ [] List.nodup_nil).1.of_map

theorem mem_found {node : Nat} {parents : List Parent} {g : GraphId} (h : g ∈ l.found heap node parents) :
    ∃ n ∈ node :: parents.map Parent.id, l.graphs[n]? = some g := by
  have hfound := (foldl_insertByOrigin _ [] List.nodup_nil).2 g h
  rcases hfound with h | h
  · exact absurd h List.not_mem_nil
  · obtain ⟨n, hn, hg⟩ := List.mem_filterMap.mp h
    exact ⟨n, hn, hg⟩

theorem analyse_noCollision {node : Nat} {parents : List Parent} {g : GraphId}
    (h : l.analyse heap node parents = .noCollision g) :
    ∃ n ∈ node :: parents.map Parent.id, l.graphs[n]? = some g := by
  unfold analyse at h
  split at h
  · split at h
    · next g' hg =>
      cases h
      exact ⟨node, List.mem_cons_self, hg⟩
    · cases h
  · split at h
    · cases h
    · next g' hg =>
      cases h
      exact mem_found (by rw [hg]; exact List.mem_singleton_self _)
    · cases h

theorem analyse_collisions {node : Nat} {parents : List Parent} {graphs : List GraphId}
    (h : l.analyse heap node parents = .collisions graphs) : graphs = l.found heap node parents := by
  unfold analyse at h
  split at h
  · split at h <;> cases h
  · split at h
    · cases h
    · cases h
    · cases h
      rfl

theorem foldl_insertByOrigin_ne_nil {graph : GraphId} (graphs found : List GraphId) (h : found ≠ [] ∨ graph ∈ graphs) :
    graphs.foldl (insertByOrigin heap) found ≠ [] := by
  induction graphs generalizing found with
  | nil => simpa using h
  | cons g graphs ih => exact ih _ (.inl (by simp [insertByOrigin]))

theorem analyse_newGraph {node : Nat} {parents : List Parent} (h : l.analyse heap node parents = .newGraph) :
    ∀ n ∈ node :: parents.map Parent.id, l.graphs[n]? = none := by
  unfold analyse at h
  split at h
  · next hps =>
    split at h
    · cases h
    · next hn => simpa [hps] using hn
  · split at h
    · next hnil =>
      intro n hn
      by_contra hne
      obtain ⟨g, hg⟩ := Option.ne_none_iff_exists'.mp hne
      exact foldl_insertByOrigin_ne_nil _ [] (.inr (List.mem_filterMap.mpr ⟨n, hn, hg⟩)) hnil
    · cases h
    · cases h

theorem analyse_root_noCollision {node : Nat} {g : GraphId} (h : l.analyse heap node [] = .noCollision g) :
    l.graphs[node]? = some g := by
  obtain ⟨n, hn, hg⟩ := analyse_noCollision h
  obtain rfl := List.mem_singleton.mp hn
  exact hg

theorem analyse_root (node : Nat) (graphs : List GraphId) : l.analyse heap node [] ≠ .collisions graphs := by
  simp only [analyse, if_true]
  split <;> simp

end GraphLocator

end Ruda.Autodiff
