import Mutant.Ledger.Graph

/-!
# The ledger's own schema

The labels of the nodes and edges that the disclosure family writes.  A script's labels are the
first 128 custom ones; the schema's custom labels start at offset 4096.
-/

namespace Mutant.Ledger

open Mutant.Security (Bytes text)

/-- How the store numbers its types: custom types come after its own. -/
structure StoreTypes where
  /-- `store.NodeTypeCustomBase`. -/
  nodeCustomBase : Nat
  /-- `store.EdgeTypeCustomBase`. -/
  edgeCustomBase : Nat
  /-- `store.NodeTypeCase`. -/
  case : Nat
  case_lt : case < nodeCustomBase

def disclosureTypeBase : Nat := 4096

def ledgerScriptTypes : Nat := 128

variable (T : StoreTypes)

/-- `store.CustomNodeType`. -/
def customNodeType (n : Nat) : Nat := T.nodeCustomBase + n

/-- `store.CustomEdgeType`. -/
def customEdgeType (n : Nat) : Nat := T.edgeCustomBase + n

def disclosureNodeCase : Nat := T.case
def disclosureNodeActor : Nat := customNodeType T (disclosureTypeBase + 1)
def disclosureNodeRecord : Nat := customNodeType T (disclosureTypeBase + 2)
def disclosureNodeClass : Nat := customNodeType T (disclosureTypeBase + 3)
def disclosureNodeView : Nat := customNodeType T (disclosureTypeBase + 4)
def disclosureNodeReclass : Nat := customNodeType T (disclosureTypeBase + 8)
def disclosureNodeClassEvent : Nat := customNodeType T (disclosureTypeBase + 18)
def disclosureNodeRedactionVersion : Nat := customNodeType T (disclosureTypeBase + 19)

def disclosureEdgeInCase : Nat := customEdgeType T (disclosureTypeBase + 0)
def disclosureEdgeClassifiedAs : Nat := customEdgeType T (disclosureTypeBase + 1)
def disclosureEdgeGrants : Nat := customEdgeType T (disclosureTypeBase + 2)
def disclosureEdgeAuthorisedBy : Nat := customEdgeType T (disclosureTypeBase + 4)
def disclosureEdgePerformedBy : Nat := customEdgeType T (disclosureTypeBase + 5)
def disclosureEdgeSupersedes : Nat := customEdgeType T (disclosureTypeBase + 7)
def disclosureEdgeRevises : Nat := customEdgeType T (disclosureTypeBase + 13)

/-- `disclosureKeys`: the properties a node with a label is looked up by. -/
def disclosureKeys (label : Nat) : List Bytes :=
  if label = disclosureNodeCase T then [text "case.uid"]
  else if label = disclosureNodeActor T then [text "actor.id"]
  else if label = disclosureNodeRecord T then [text "record.uid"]
  else if label = disclosureNodeClass T then [text "class.tag"]
  else if label = disclosureNodeView T then [text "view.fp"]
  else if label = disclosureNodeReclass T then
    [text "reclass.uid", text "reclass.pair", text "reclass.superseded_uid"]
  else if label = disclosureNodeClassEvent T then
    [text "classify.uid", text "classify.chain", text "classify.case_uid", text "classify.target"]
  else if label = disclosureNodeRedactionVersion T then
    [text "redaction.uid", text "redaction.chain", text "redaction.line"]
  else []

/-- `ledgerScriptNodeLabels`: the labels are a script's, and there is one. -/
def ledgerScriptNodeLabels (labels : List Nat) : Bool := labels.all (fun label =>
    T.nodeCustomBase ≤ label && decide (label < T.nodeCustomBase + ledgerScriptTypes)) &&
    decide (labels ≠ [])

/-- `ledgerScriptEdgeLabels`. -/
def ledgerScriptEdgeLabels (labels : List Nat) : Bool := labels.all (fun label =>
    T.edgeCustomBase ≤ label && decide (label < T.edgeCustomBase + ledgerScriptTypes)) &&
    decide (labels ≠ [])

end Mutant.Ledger
