import Mutant.Builtin.LedgerClassify

/-!
# Reading the ledger under a view

A read under a view goes through a reader that answers from one snapshot, with every node and edge
the view does not show taken out.  The reader keeps what it has decided about a node.  The snapshot is
any `GraphReader`, with queries of its own.
-/

namespace Mutant.Builtin

open Mutant.Ledger
open Mutant.Security (Bytes Primitives text)

/-- `ledgerView`, as far as a read uses it: the tags it grants and its case, and what its refusals
name. -/
structure LedgerView where
  grants : List Bytes
  caseUID : Bytes
  caseID : Bytes
  label : Bytes

/-- Why a read under a view fails. -/
inductive LedgerViewError
  | store (error : StoreError)
  | classification (node : Nat) (caseID view : Bytes)
  | undecodable (node : Nat)
  /-- `errLedgerViewCount`. -/
  | count
deriving DecidableEq, Repr

/-- What the reader has decided, by node id. -/
abbrev Shown := List (Nat × Bool)

/-- A read, which may decide about more nodes. -/
abbrev ViewM := ExceptT LedgerViewError (StateM Shown)

/-- A read of the snapshot. -/
def readStore {α : Type} (read : Except StoreError α) : ViewM α :=
  ExceptT.mk (pure (read.mapError .store))

variable {NQ EQ : Type}

/-- A reader as a source of chains. -/
def readerSource (g : GraphReader NQ EQ) : CaseChainSource := ⟨g.nodesByProperty, g.getNode⟩

/-- `ledgerViewSchemaEdge`. -/
def ledgerViewSchemaEdge (T : StoreTypes) (labels : List Nat) : Bool :=
  labels = [disclosureEdgeInCase T] ∨ labels = [disclosureEdgeClassifiedAs T]

/-- `ledgerViewReader`: the snapshot and the view. -/
structure LedgerViewReader (NQ EQ : Type) where
  P : Primitives
  D : PropertyCodec
  T : StoreTypes
  snapshot : GraphReader NQ EQ
  view : LedgerView

namespace LedgerViewReader

variable (r : LedgerViewReader NQ EQ)

/-- The property by which a view shows a node of the schema that has one label. -/
def schemaKey? (label : Nat) : Option Bytes :=
  if label = disclosureNodeCase r.T then some (text "case.uid")
  else if label = disclosureNodeRecord r.T then some (text "record.case_uid")
  else if label = disclosureNodeClass r.T then some (text "class.tag")
  else none

/-- The rule for a node of the schema. -/
def decideSchema (node : Node) : Except LedgerViewError Bool :=
  match node.labels with
  | [label] =>
    match r.schemaKey? label with
    | none => .ok false
    | some key =>
      match r.D.decode node.properties with
      | none => .error (.undecodable node.id)
      | some props =>
        if key = text "class.tag" then .ok (props.get key ∈ r.view.grants)
        else .ok (props.get key = r.view.caseUID)
  | _ => .ok false

/-- `decide`. -/
def decide (node : Node) : Except LedgerViewError Bool :=
  if ledgerScriptNodeLabels r.T node.labels then
    match classificationRead r.P r.D r.T (readerSource r.snapshot) r.view.caseUID node.id with
    | .error _ => .error (.classification node.id r.view.caseID r.view.label)
    | .ok events =>
      let tags := classificationTags events
      .ok (tags ≠ [] ∧ ∀ tag ∈ tags, tag ∈ r.view.grants)
  else r.decideSchema node

/-- `showsNode`. -/
def showsNode (node : Node) : ViewM Bool := do
  match (← get).lookup node.id with
  | some shown => return shown
  | none =>
    let shown ← ExceptT.mk (pure (r.decide node))
    modify ((node.id, shown) :: ·)
    return shown

/-- `showsNodeID`. -/
def showsNodeID (id : Nat) : ViewM Bool := do
  match (← get).lookup id with
  | some shown => return shown
  | none =>
    match r.snapshot.getNode id with
    | .error (.notFound _) =>
      modify ((id, false) :: ·)
      return false
    | .error error => throw (.store error)
    | .ok node => r.showsNode node

/-- `showsEdge`. -/
def showsEdge (edge : Edge) : ViewM Bool := do
  if !ledgerScriptEdgeLabels r.T edge.labels && !ledgerViewSchemaEdge r.T edge.labels then
    return false
  else if !(← r.showsNodeID edge.src) then return false
  else r.showsNodeID edge.dst

/-- `showsEdgeID`. -/
def showsEdgeID (id : Nat) : ViewM Bool :=
  match r.snapshot.getEdge id with
  | .error (.notFound _) => return false
  | .error error => throw (.store error)
  | .ok edge => r.showsEdge edge

end LedgerViewReader

/-- `ledgerViewPage`, with the ids kept so far. -/
def ledgerViewPage (shows : Nat → ViewM Bool) : (ids : List Nat) → (offset limit : Int) →
    (out : List Nat) → ViewM (List Nat)
  | [], _, _, out => return out
  | id :: ids, offset, limit, out => do
    if !(← shows id) then ledgerViewPage shows ids offset limit out
    else if 0 < offset then ledgerViewPage shows ids (offset - 1) limit out
    else if 0 < limit ∧ ((out ++ [id]).length : Int) = limit then return out ++ [id]
    else ledgerViewPage shows ids offset limit (out ++ [id])

namespace LedgerViewReader

variable (r : LedgerViewReader NQ EQ)

def getNode (id : Nat) : ViewM Node := do
  let node ← readStore (r.snapshot.getNode id)
  if ← r.showsNode node then return node else throw (.store (.notFound id))

def getEdge (id : Nat) : ViewM Edge := do
  let edge ← readStore (r.snapshot.getEdge id)
  if ← r.showsEdge edge then return edge else throw (.store (.notFound id))

/-- The loop of `EdgesOf`. -/
def keepShown : List Edge → ViewM (List Edge)
  | [] => return []
  | edge :: edges => do
    if ← r.showsEdge edge then return edge :: (← keepShown edges) else keepShown edges

def edgesOf (id : Nat) (dir : Direction) (types : List Nat) : ViewM (List Edge) := do
  if ← r.showsNodeID id then r.keepShown (← readStore (r.snapshot.edgesOf id dir types))
  else return []

/-- The loop of `Neighbours`. -/
def eachFar (id : Nat) : (seen : List Nat) → List Edge → ViewM (List (Node × Edge))
  | _, [] => return []
  | seen, edge :: edges =>
    if edge.far id ∈ seen then eachFar id seen edges
    else do
      let node ← readStore (r.snapshot.getNode (edge.far id))
      return (node, edge) :: (← eachFar id (edge.far id :: seen) edges)

def neighbours (id : Nat) (dir : Direction) (types : List Nat) : ViewM (List (Node × Edge)) := do
  r.eachFar id [] (← r.edgesOf id dir types)

def keepNodes (ids : Except StoreError (List Nat)) : ViewM (List Nat) := do
  ledgerViewPage r.showsNodeID (← readStore ids) 0 0 []

def keepEdges (ids : Except StoreError (List Nat)) : ViewM (List Nat) := do
  ledgerViewPage r.showsEdgeID (← readStore ids) 0 0 []

def nodesByType (label : Nat) : ViewM (List Nat) := r.keepNodes (r.snapshot.nodesByType label)

def edgesByType (label : Nat) : ViewM (List Nat) := r.keepEdges (r.snapshot.edgesByType label)

def nodesByProperty (key value : Bytes) : ViewM (List Nat) :=
  r.keepNodes (r.snapshot.nodesByProperty key value)

def edgesByProperty (key value : Bytes) : ViewM (List Nat) :=
  r.keepEdges (r.snapshot.edgesByProperty key value)

def queryNodeIDs (q : NQ) (offset limit : Int) : ViewM (List Nat) := do
  ledgerViewPage r.showsNodeID (← readStore (r.snapshot.queryNodeIDs q 0 0)) offset limit []

def queryEdgeIDs (q : EQ) (offset limit : Int) : ViewM (List Nat) := do
  ledgerViewPage r.showsEdgeID (← readStore (r.snapshot.queryEdgeIDs q 0 0)) offset limit []

def nodeCount : ViewM Nat := throw .count

def edgeCount : ViewM Nat := throw .count

end LedgerViewReader

/-! ### The reads of the interface -/

/-- A read that answers from what the ledger holds. -/
inductive LedgerRead (NQ EQ : Type)
  | getNode (id : Nat)
  | getEdge (id : Nat)
  | neighbours (id : Nat) (dir : Direction) (types : List Nat)
  | edgesOf (id : Nat) (dir : Direction) (types : List Nat)
  | nodesByType (label : Nat)
  | edgesByType (label : Nat)
  | nodesByProperty (key value : Bytes)
  | edgesByProperty (key value : Bytes)
  | queryNodeIDs (q : NQ) (offset limit : Int)
  | queryEdgeIDs (q : EQ) (offset limit : Int)

inductive LedgerAnswer
  | node (node : Node)
  | edge (edge : Edge)
  | neighbours (results : List (Node × Edge))
  | edges (edges : List Edge)
  | ids (ids : List Nat)
deriving DecidableEq

/-- The read of a graph, under no view. -/
def LedgerRead.plain (g : GraphReader NQ EQ) (read : LedgerRead NQ EQ) :
    Except LedgerViewError LedgerAnswer :=
  Except.mapError .store <|
    match read with
    | .getNode id => (g.getNode id).map .node
    | .getEdge id => (g.getEdge id).map .edge
    | .neighbours id dir types => (g.neighbours id dir types).map .neighbours
    | .edgesOf id dir types => (g.edgesOf id dir types).map .edges
    | .nodesByType label => (g.nodesByType label).map .ids
    | .edgesByType label => (g.edgesByType label).map .ids
    | .nodesByProperty key value => (g.nodesByProperty key value).map .ids
    | .edgesByProperty key value => (g.edgesByProperty key value).map .ids
    | .queryNodeIDs q offset limit => (g.queryNodeIDs q offset limit).map .ids
    | .queryEdgeIDs q offset limit => (g.queryEdgeIDs q offset limit).map .ids

namespace LedgerViewReader

variable (r : LedgerViewReader NQ EQ)

/-- The read under the view. -/
def read : LedgerRead NQ EQ → ViewM LedgerAnswer
  | .getNode id => return .node (← r.getNode id)
  | .getEdge id => return .edge (← r.getEdge id)
  | .neighbours id dir types => return .neighbours (← r.neighbours id dir types)
  | .edgesOf id dir types => return .edges (← r.edgesOf id dir types)
  | .nodesByType label => return .ids (← r.nodesByType label)
  | .edgesByType label => return .ids (← r.edgesByType label)
  | .nodesByProperty key value => return .ids (← r.nodesByProperty key value)
  | .edgesByProperty key value => return .ids (← r.edgesByProperty key value)
  | .queryNodeIDs q offset limit => return .ids (← r.queryNodeIDs q offset limit)
  | .queryEdgeIDs q offset limit => return .ids (← r.queryEdgeIDs q offset limit)

/-- The answers of reads one after another, each with what those before it decided. -/
def answersFrom (shown : Shown) : List (LedgerRead NQ EQ) → List (Except LedgerViewError LedgerAnswer)
  | [] => []
  | read :: reads =>
    ((r.read read).run.run shown).1 :: answersFrom ((r.read read).run.run shown).2 reads

/-- The answers of a new reader. -/
def answers (reads : List (LedgerRead NQ EQ)) : List (Except LedgerViewError LedgerAnswer) :=
  r.answersFrom [] reads

end LedgerViewReader

end Mutant.Builtin
