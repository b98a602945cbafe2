import Mutant.Ledger.Store
import Mathlib.Data.List.Nodup

/-!
# The graph store

The store that ledgers are kept in is not part of the repository.  It is a parameter here: what is
assumed of its answers are the laws of `GraphReader.Lawful` and `GraphReader.Part`, and what is
assumed of its writes those of `GraphStore`.
-/

namespace Mutant.Ledger

open List
open Mutant.Security (Bytes)

variable {offset : Int}

/-- `store.Direction`. -/
inductive Direction
  | outbound
  | inbound
  | both
deriving DecidableEq, Repr

/-- The edge is one of the node's, in the direction. -/
def Direction.Of (dir : Direction) (id : Nat) (edge : Edge) : Prop :=
  match dir with
  | .outbound => edge.src = id
  | .inbound => edge.dst = id
  | .both => edge.src = id ∨ edge.dst = id

instance (dir : Direction) (id : Nat) (edge : Edge) : Decidable (dir.Of id edge) :=
  match dir with
  | .outbound => inferInstanceAs (Decidable (edge.src = id))
  | .inbound => inferInstanceAs (Decidable (edge.dst = id))
  | .both => inferInstanceAs (Decidable (edge.src = id ∨ edge.dst = id))

/-- The ids after an offset, and no more of them than a limit; a limit that is not positive is
none. -/
def page (offset limit : Int) (ids : List Nat) : List Nat :=
  if 0 < limit then (ids.drop offset.toNat).take limit.toNat else ids.drop offset.toNat

theorem page_cons_of_pos (h : 0 < offset) (lim : Int) (id : Nat) (ids : List Nat) :
    page offset lim (id :: ids) = page (offset - 1) lim ids := by
  obtain ⟨n, hn⟩ : ∃ n, offset.toNat = n + 1 := ⟨offset.toNat - 1, by omega⟩
  have hless : (offset - 1).toNat = n := by omega
  rw [page, page, hn, hless, drop_succ_cons]

theorem page_one (h : offset ≤ 0) (id : Nat) (ids : List Nat) :
    page offset 1 (id :: ids) = [id] := by
  rw [page, Int.toNat_of_nonpos h]
  rfl

theorem page_cons_of_nonpos {lim : Int} (h : offset ≤ 0) (hlim : lim ≠ 1) (id : Nat)
    (ids : List Nat) : page offset lim (id :: ids) = id :: page offset (lim - 1) ids := by
  rw [page, page, Int.toNat_of_nonpos h, drop_zero, drop_zero]
  by_cases hpos : 0 < lim
  · obtain ⟨n, hn⟩ : ∃ n, lim.toNat = n + 1 := ⟨lim.toNat - 1, by omega⟩
    have hless : (lim - 1).toNat = n := by omega
    rw [if_pos hpos, if_pos (by omega), hn, hless, take_succ_cons]
  · rw [if_neg hpos, if_neg (by omega)]

/-- The other end of a node's edge. -/
def Edge.far (edge : Edge) (id : Nat) : Nat := if edge.dst = id then edge.src else edge.dst

/-- One edge for each other end: the first. -/
def onePerFar (id : Nat) : (seen : List Nat) → List Edge → List Edge
  | _, [] => []
  | seen, edge :: edges =>
    if edge.far id ∈ seen then onePerFar id seen edges
    else edge :: onePerFar id (edge.far id :: seen) edges

/-! ### Reads -/

/-- `store.GraphReader`.  The queries of nodes and of edges are the store's own: what they compare
and how is up to it, and so is the order of the answers.  Their page is an offset and a limit. -/
structure GraphReader (NodeQuery EdgeQuery : Type) where
  getNode : (id : Nat) → Except StoreError Node
  getEdge : (id : Nat) → Except StoreError Edge
  neighbours : (id : Nat) → Direction → (types : List Nat) → Except StoreError (List (Node × Edge))
  edgesOf : (id : Nat) → Direction → (types : List Nat) → Except StoreError (List Edge)
  nodesByType : (label : Nat) → Except StoreError (List Nat)
  edgesByType : (label : Nat) → Except StoreError (List Nat)
  nodesByProperty : (key value : Bytes) → Except StoreError (List Nat)
  edgesByProperty : (key value : Bytes) → Except StoreError (List Nat)
  queryNodeIDs : NodeQuery → (offset limit : Int) → Except StoreError (List Nat)
  queryEdgeIDs : EdgeQuery → (offset limit : Int) → Except StoreError (List Nat)

namespace GraphReader

variable {NQ EQ : Type}

/-- How a graph is read: an id that is not there is not found, `Neighbours` gives the first edge to
each other end, and a page of a query is one of its answers without a page. -/
structure Lawful (g : GraphReader NQ EQ) : Prop where
  getNode_id : ∀ id node, g.getNode id = .ok node → node.id = id
  getNode_error : ∀ id error, g.getNode id = .error error → error = .notFound id
  getEdge_error : ∀ id error, g.getEdge id = .error error → error = .notFound id
  edgesOf_ok : ∀ id dir types, ∃ edges, g.edgesOf id dir types = .ok edges ∧
    ∀ edge ∈ edges, edge.src = id ∨ edge.dst = id
  neighbours_eq : ∀ id dir types, g.neighbours id dir types = (g.edgesOf id dir types).bind
    fun edges => (onePerFar id [] edges).mapM fun edge =>
      (g.getNode (edge.far id)).map fun node => (node, edge)
  queryNodeIDs_eq : ∀ q offset limit,
    g.queryNodeIDs q offset limit = (g.queryNodeIDs q 0 0).map (page offset limit)
  queryEdgeIDs_eq : ∀ q offset limit,
    g.queryEdgeIDs q offset limit = (g.queryEdgeIDs q 0 0).map (page offset limit)

/-- The graph that `part` reads is what is left of the one `whole` reads when only some nodes and
edges are kept: `part` answers as `whole` does, in the same order and without the others. -/
structure Part (whole part : GraphReader NQ EQ) (node : Nat → Bool) (edge : Edge → Bool)
    (edgeID : Nat → Bool) : Prop where
  lawful : part.Lawful
  getNode : ∀ id, part.getNode id = if node id then whole.getNode id else .error (.notFound id)
  getEdge : ∀ id, part.getEdge id = if edgeID id then whole.getEdge id else .error (.notFound id)
  edgesOf : ∀ id dir types,
    part.edgesOf id dir types = (whole.edgesOf id dir types).map (·.filter edge)
  nodesByType : ∀ label, part.nodesByType label = (whole.nodesByType label).map (·.filter node)
  edgesByType : ∀ label, part.edgesByType label = (whole.edgesByType label).map (·.filter edgeID)
  nodesByProperty : ∀ key value,
    part.nodesByProperty key value = (whole.nodesByProperty key value).map (·.filter node)
  edgesByProperty : ∀ key value,
    part.edgesByProperty key value = (whole.edgesByProperty key value).map (·.filter edgeID)
  queryNodeIDs : ∀ q, part.queryNodeIDs q 0 0 = (whole.queryNodeIDs q 0 0).map (·.filter node)
  queryEdgeIDs : ∀ q, part.queryEdgeIDs q 0 0 = (whole.queryEdgeIDs q 0 0).map (·.filter edgeID)

end GraphReader

/-! ### Writes -/

/-- The store of a ledger, as the disclosure family reads and writes it.  `nodes`, `edges` and
`Indexed` say what a state of it holds; the laws say what the reads and the writes have to do with
that, in whatever order the reads answer. -/
structure GraphStore where
  State : Type
  empty : State
  getNode : State → (id : Nat) → Except StoreError Node
  getNodes : State → (ids : List Nat) → Except StoreError (List Node)
  nodesByProperty : State → (key value : Bytes) → Except StoreError (List Nat)
  edgesOf : State → (id : Nat) → Direction → (types : List Nat) → Except StoreError (List Edge)
  /-- `AddNode` and `IndexNodeProperties`. -/
  addNode : State → (labels : List Nat) → (properties : Bytes) → (indexed : List (Bytes × Bytes)) →
    Except StoreError (Nat × State)
  addEdge : State → (src dst : Nat) → (labels : List Nat) → (properties : Bytes) →
    Except StoreError State
  nodes : State → List Node
  edges : State → List Edge
  Indexed : State → (id : Nat) → (key value : Bytes) → Prop
  nodes_empty : nodes empty = []
  edges_empty : edges empty = []
  /-- No two nodes have one id. -/
  eq_of_id_eq : ∀ s, ∀ node ∈ nodes s, ∀ other ∈ nodes s, node.id = other.id → node = other
  getNode_of_mem : ∀ s, ∀ node ∈ nodes s, getNode s node.id = .ok node
  /-- A posting has every id once. -/
  nodesByProperty_ok : ∀ s key value, ∃ ids, nodesByProperty s key value = .ok ids ∧ ids.Nodup ∧
    ∀ id, id ∈ ids ↔ Indexed s id key value
  getNodes_ok : ∀ s ids, ids.Nodup → ∃ found, getNodes s ids = .ok found ∧ found.Nodup ∧
    ∀ node, node ∈ found ↔ node ∈ nodes s ∧ node.id ∈ ids
  edgesOf_ok : ∀ s id dir types, ∃ found, edgesOf s id dir types = .ok found ∧
    ∀ edge, edge ∈ found ↔ edge ∈ edges s ∧ dir.Of id edge ∧
      (types = [] ∨ ∃ label ∈ edge.labels, label ∈ types)
  /-- A node is added under an id that no node has. -/
  addNode_ok : ∀ s labels blob entries id s', addNode s labels blob entries = .ok (id, s') →
    (∀ node ∈ nodes s, node.id ≠ id) ∧
    (∀ node, node ∈ nodes s' ↔ node ∈ nodes s ∨ node = ⟨id, labels, blob⟩) ∧ edges s' = edges s ∧
    ∀ other key value, Indexed s' other key value ↔
      if other = id then (key, value) ∈ entries else Indexed s other key value
  addEdge_ok : ∀ s src dst labels blob s', addEdge s src dst labels blob = .ok s' →
    nodes s' = nodes s ∧ Indexed s' = Indexed s ∧
    ∃ id, ∀ edge, edge ∈ edges s' ↔ edge ∈ edges s ∨ edge = ⟨id, src, dst, labels, blob⟩

end Mutant.Ledger
