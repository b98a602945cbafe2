import Mathlib.Data.List.Dedup
import Mutant.Ledger.Graph
import Mutant.Lib.Keyed

/-!
# A store that lists what it holds

A graph as lists of nodes, edges and index entries, to run the ledger's functions on.  Its reads are
lawful (`Graph.lawful_reader`), a part of it is read as its own graph (`Graph.part_keep`), and it is
a store (`listStore`).
-/

namespace Mutant.Ledger

open List
open Mutant.Security (Bytes)

/-- An entry of a property index. -/
structure IndexEntry where
  key : Bytes
  value : Bytes
  id : Nat
deriving DecidableEq, Repr

/-- One state of a ledger's graph.  No two nodes, and no two edges, have one id. -/
structure Graph where
  nodes : List Node
  edges : List Edge
  nodeIndex : List IndexEntry
  edgeIndex : List IndexEntry
  nodup_nodes : (nodes.map (·.id)).Nodup
  nodup_edges : (edges.map (·.id)).Nodup
deriving DecidableEq

namespace Graph

variable (g : Graph)

def getNode (id : Nat) : Except StoreError Node :=
  match g.nodes.find? (·.id = id) with
  | some node => .ok node
  | none => .error (.notFound id)

def getEdge (id : Nat) : Except StoreError Edge :=
  match g.edges.find? (·.id = id) with
  | some edge => .ok edge
  | none => .error (.notFound id)

def edgesOf (id : Nat) (dir : Direction) (types : List Nat) : List Edge :=
  g.edges.filter fun edge => dir.Of id edge ∧ (types = [] ∨ ∃ label ∈ edge.labels, label ∈ types)

def posting (index : List IndexEntry) (key value : Bytes) : List Nat :=
  (index.filter fun entry => entry.key = key ∧ entry.value = value).map (·.id)

/-- The reads of the graph.  A query is a predicate. -/
def reader : GraphReader (Node → Bool) (Edge → Bool) where
  getNode := g.getNode
  getEdge := g.getEdge
  neighbours id dir types := (onePerFar id [] (g.edgesOf id dir types)).mapM fun edge =>
    (g.getNode (edge.far id)).map fun node => (node, edge)
  edgesOf id dir types := .ok (g.edgesOf id dir types)
  nodesByType label := .ok ((g.nodes.filter fun node => label ∈ node.labels).map (·.id))
  edgesByType label := .ok ((g.edges.filter fun edge => label ∈ edge.labels).map (·.id))
  nodesByProperty key value := .ok (posting g.nodeIndex key value)
  edgesByProperty key value := .ok (posting g.edgeIndex key value)
  queryNodeIDs q offset limit := .ok (page offset limit ((g.nodes.filter q).map (·.id)))
  queryEdgeIDs q offset limit := .ok (page offset limit ((g.edges.filter q).map (·.id)))

variable {g}

theorem getNode_eq_ok {id : Nat} {node : Node} (h : g.getNode id = .ok node) :
    node ∈ g.nodes ∧ node.id = id := by
  rw [getNode] at h
  split at h
  · next hfind =>
    cases h
    exact ⟨mem_of_find?_eq_some hfind, by simpa using find?_some hfind⟩
  · cases h

theorem getNode_of_mem {node : Node} (h : node ∈ g.nodes) : g.getNode node.id = .ok node := by
  rw [getNode, find?_of_nodup g.nodup_nodes h]

theorem getEdge_of_mem {edge : Edge} (h : edge ∈ g.edges) : g.getEdge edge.id = .ok edge := by
  rw [getEdge, find?_of_nodup g.nodup_edges h]

/-- The reads of a list graph are lawful. -/
theorem lawful_reader (g : Graph) : g.reader.Lawful where
  getNode_id _ _ h := (getNode_eq_ok h).2
  getNode_error id error h := by
    simp only [reader, getNode] at h
    split at h
    · cases h
    · exact (Except.error.inj h).symm
  getEdge_error id error h := by
    simp only [reader, getEdge] at h
    split at h
    · cases h
    · exact (Except.error.inj h).symm
  edgesOf_ok id dir types := by
    refine ⟨_, rfl, fun edge hedge => ?_⟩
    have hof : dir.Of id edge := (of_decide_eq_true (mem_filter.mp hedge).2).1
    cases dir with
    | outbound => exact .inl hof
    | inbound => exact .inr hof
    | both => exact hof
  neighbours_eq _ _ _ := rfl
  queryNodeIDs_eq _ _ _ := rfl
  queryEdgeIDs_eq _ _ _ := rfl

/-- The graph without the nodes and edges that are not kept. -/
def keep (node : Nat → Bool) (edge : Edge → Bool) (edgeID : Nat → Bool) (g : Graph) : Graph where
  nodes := g.nodes.filter fun n => node n.id
  edges := g.edges.filter edge
  nodeIndex := g.nodeIndex.filter fun entry => node entry.id
  edgeIndex := g.edgeIndex.filter fun entry => edgeID entry.id
  nodup_nodes := g.nodup_nodes.sublist (filter_sublist.map _)
  nodup_edges := g.nodup_edges.sublist (filter_sublist.map _)

/-- The keys of what is kept of a list. -/
theorem map_filter_kept {α : Type} {l : List α} {key : α → Nat} {kept : α → Bool} {p : Nat → Bool}
    (h : ∀ a ∈ l, p (key a) = kept a) (q : α → Bool) :
    ((l.filter kept).filter q).map key = ((l.filter q).map key).filter p := by
  rw [filter_map, filter_filter, filter_filter]
  congr 1
  refine filter_congr fun a ha => ?_
  rw [Function.comp_apply, h a ha, Bool.and_comm]

/-- What is kept of a list graph is a part of it. -/
theorem part_keep {node : Nat → Bool} {edge : Edge → Bool} {edgeID : Nat → Bool}
    (h : ∀ e ∈ g.edges, edgeID e.id = edge e) :
    GraphReader.Part g.reader (g.keep node edge edgeID).reader node edge edgeID where
  lawful := lawful_reader _
  getNode id := by
    simp only [reader, getNode, keep, find?_filter_of_nodup g.nodup_nodes]
    cases hfind : g.nodes.find? (·.id = id) with
    | none => simp
    | some found =>
      -- ids are unique, so the node found is the one that is kept or not
      obtain rfl : found.id = id := by simpa using find?_some hfind
      rw [Option.filter_some]
      split_ifs <;> rfl
  getEdge id := by
    simp only [reader, getEdge, keep, find?_filter_of_nodup g.nodup_edges]
    cases hfind : g.edges.find? (·.id = id) with
    | none => simp
    | some found =>
      obtain rfl : found.id = id := by simpa using find?_some hfind
      rw [Option.filter_some, h found (mem_of_find?_eq_some hfind)]
      split_ifs <;> rfl
  edgesOf id dir types := by
    refine congrArg Except.ok ?_
    show _ = filter edge (g.edgesOf id dir types)
    rw [edgesOf, edgesOf, keep, filter_filter, filter_filter]
    exact filter_congr fun e _ => Bool.and_comm _ _
  nodesByType label := congrArg Except.ok (map_filter_kept (fun _ _ => rfl) _)
  edgesByType label := congrArg Except.ok (map_filter_kept h _)
  nodesByProperty key value := congrArg Except.ok (map_filter_kept (fun _ _ => rfl) _)
  edgesByProperty key value := congrArg Except.ok (map_filter_kept (fun _ _ => rfl) _)
  queryNodeIDs q := congrArg Except.ok (map_filter_kept (fun _ _ => rfl) _)
  queryEdgeIDs q := congrArg Except.ok (map_filter_kept h _)

/-! ### Writes -/

/-- An id none of some has. -/
def freshID (ids : List Nat) : Nat := ids.foldr max 0 + 1

/-- A fresh id is above every id there is. -/
theorem lt_freshID {ids : List Nat} {id : Nat} (h : id ∈ ids) : id < freshID ids := by
  induction ids with
  | nil => cases h
  | cons first ids ih =>
    rw [freshID, foldr_cons]
    obtain rfl | h := mem_cons.mp h
    · omega
    · have := ih h
      rw [freshID] at this
      omega

theorem nodup_append_freshID {ids others : List Nat} (h : ids.Nodup) :
    (ids ++ [freshID (ids ++ others)]).Nodup := by
  rw [nodup_append]
  refine ⟨h, nodup_singleton _, ?_⟩
  intro id hid fresh hfresh heq
  rw [mem_singleton.mp hfresh] at heq
  exact Nat.lt_irrefl _ (heq ▸ lt_freshID (mem_append_left others hid))

variable (g)

def nextNode : Nat := freshID (g.nodes.map (·.id) ++ g.nodeIndex.map (·.id))

def addNode (labels : List Nat) (properties : Bytes) (indexed : List (Bytes × Bytes)) : Graph where
  nodes := g.nodes ++ [⟨g.nextNode, labels, properties⟩]
  edges := g.edges
  nodeIndex := g.nodeIndex ++ indexed.map fun entry => ⟨entry.1, entry.2, g.nextNode⟩
  edgeIndex := g.edgeIndex
  nodup_nodes := by
    rw [List.map_append]
    exact nodup_append_freshID g.nodup_nodes
  nodup_edges := g.nodup_edges

def addEdge (src dst : Nat) (labels : List Nat) (properties : Bytes) : Graph where
  nodes := g.nodes
  edges := g.edges ++ [⟨freshID (g.edges.map (·.id) ++ []), src, dst, labels, properties⟩]
  nodeIndex := g.nodeIndex
  edgeIndex := g.edgeIndex
  nodup_nodes := g.nodup_nodes
  nodup_edges := by
    rw [List.map_append]
    exact nodup_append_freshID g.nodup_edges

end Graph

theorem mem_posting {index : List IndexEntry} {key value : Bytes} {id : Nat} :
    id ∈ Graph.posting index key value ↔ (⟨key, value, id⟩ : IndexEntry) ∈ index := by
  simp only [Graph.posting, mem_map, mem_filter, decide_eq_true_eq]
  constructor
  · rintro ⟨entry, ⟨hmem, rfl, rfl⟩, rfl⟩
    exact hmem
  · exact fun hmem => ⟨_, ⟨hmem, rfl, rfl⟩, rfl⟩

/-- Graphs as a store. -/
def listStore : GraphStore where
  State := Graph
  empty := ⟨[], [], [], [], .nil, .nil⟩
  getNode := Graph.getNode
  getNodes g ids := .ok (g.nodes.filter fun node => node.id ∈ ids)
  nodesByProperty g key value := .ok (Graph.posting g.nodeIndex key value).dedup
  edgesOf g id dir types := .ok (g.edgesOf id dir types)
  addNode g labels blob indexed := .ok (g.nextNode, g.addNode labels blob indexed)
  addEdge g src dst labels blob := .ok (g.addEdge src dst labels blob)
  nodes := Graph.nodes
  edges := Graph.edges
  Indexed g id key value := ⟨key, value, id⟩ ∈ g.nodeIndex
  nodes_empty := rfl
  edges_empty := rfl
  eq_of_id_eq g node hnode other hother h := inj_on_of_nodup_map g.nodup_nodes hnode hother h
  getNode_of_mem _ _ := Graph.getNode_of_mem
  nodesByProperty_ok g key value :=
    ⟨_, rfl, nodup_dedup _, fun id => mem_dedup.trans mem_posting⟩
  getNodes_ok g ids _ := ⟨_, rfl, (Nodup.of_map _ g.nodup_nodes).filter _, by simp⟩
  edgesOf_ok g id dir types := ⟨_, rfl, by simp [Graph.edgesOf]⟩
  addNode_ok g labels blob entries id g' h := by
    obtain ⟨rfl, rfl⟩ := Prod.mk.inj (Except.ok.inj h)
    refine ⟨fun node hnode => ?_, by simp [Graph.addNode], rfl, fun other key value => ?_⟩
    · exact Nat.ne_of_lt (Graph.lt_freshID (mem_append_left _ (mem_map_of_mem hnode)))
    · have hfresh : ⟨key, value, g.nextNode⟩ ∉ g.nodeIndex := fun hmem =>
        Nat.lt_irrefl _ (Graph.lt_freshID (mem_append_right _ (mem_map_of_mem (f := (·.id)) hmem)))
      split_ifs with hid
      · subst hid
        simp [Graph.addNode, hfresh]
      · simp [Graph.addNode, Ne.symm hid]
  addEdge_ok g src dst labels blob g' h := by
    cases h
    exact ⟨rfl, rfl, _, fun edge => mem_append.trans (or_congr_right mem_singleton)⟩

end Mutant.Ledger
