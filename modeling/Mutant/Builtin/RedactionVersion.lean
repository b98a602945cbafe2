import Mutant.Builtin.DisclosureTx
import Mutant.Lib.Breadth
import Mutant.Lib.Lineage

/-!
# Redaction versions

What a view releases of a record is kept as a chain of versions, one chain for each line.  The line
of a record is found by walking back through the reclassifications that the ledger records, to the
first record that keys a line.
-/

namespace Mutant.Builtin

open Mutant.Ledger
open Mutant.Security (Bytes text)

variable (E : LedgerEnv)

/-- `redactionChain`. -/
def redactionChain : CaseChainSpec := ⟨disclosureNodeRedactionVersion E.T, text "redaction"⟩

def maxRedactionLine : Nat := 4096

/-- `redactionChainKey`. -/
def redactionChainKey (caseUID line canonical : Bytes) : Bytes :=
  caseUID.map Hex.lower ++ text "|" ++ line ++ text "|" ++
    Hex.encode (E.P.sha256 (text "mutant-view-name-v1|" ++ canonical)).toList

/-- `redactionKeysALine`: some version is kept in the line a record keys. -/
def redactionKeysALine (g : E.S.State) (recordUID : Bytes) : Except LedgerError Bool :=
  (nodesUnder E g (text "redaction.line") recordUID).map fun nodes =>
    nodes.any fun node => disclosureNodeRedactionVersion E.T ∈ node.labels

/-- The uid of the record at an end of a `SUPERSEDES` edge of another. -/
def supersedesEnd (g : E.S.State) (recordUID : Bytes) (id : Nat) : Except LedgerError Bytes :=
  match E.S.getNode g id with
  | .error error => .error (.store error)
  | .ok node =>
    if disclosureNodeRecord E.T ∈ node.labels then
      (disclosureDecode E node).map fun decoded => decoded.props.get (text "record.uid")
    else .error (.notRecord id recordUID)

/-- The uids at the other ends of a record's `SUPERSEDES` edges, sorted and without repeats. -/
def supersedesEnds (g : E.S.State) (recordUID : Bytes) (dir : Direction) (end_ : Edge → Nat) :
    Except LedgerError (List Bytes) :=
  (disclosureFind E g (disclosureNodeRecord E.T) (text "record.uid") recordUID).bind fun
    | none => .ok []
    | some record =>
      ((E.S.edgesOf g record.id dir [disclosureEdgeSupersedes E.T]).mapError .store).bind fun edges =>
        (edges.mapM fun edge => supersedesEnd E g recordUID (end_ edge)).map fun uids =>
          uids.dedup.insertionSort (· ≤ ·)

/-- `redactionReclassifies`: the records that a record reclassifies. -/
def redactionReclassifies (g : E.S.State) (recordUID : Bytes) : Except LedgerError (List Bytes) :=
  supersedesEnds E g recordUID .outbound (·.dst)

/-- `reclassSuccessors`: the records that reclassify a record. -/
def reclassSuccessors (g : E.S.State) (recordUID : Bytes) : Except LedgerError (List Bytes) :=
  supersedesEnds E g recordUID .inbound (·.src)

/-- `redactionLine`. -/
def redactionLine (g : E.S.State) (recordUID : Bytes) : Except LedgerError Bytes :=
  (Lineage.walk (redactionKeysALine E g) (redactionReclassifies E g) maxRedactionLine []
      (recordUID.map Hex.lower)).bind fun
    | none => .error (.lineTooLong recordUID)
    | some line => .ok line

/-- A ledger as a source of chains. -/
def ledgerSource (g : E.S.State) : CaseChainSource := ⟨E.S.nodesByProperty g, E.S.getNode g⟩

/-- `redactionChainOf`: one line's versions under one view. -/
def redactionChainOf (g : E.S.State) (caseUID line canonical : Bytes) :
    Except LedgerError (List CaseChainEvent) :=
  match caseChainRead E.P E.C.toPropertyCodec (ledgerSource E g) (redactionChain E)
      (redactionChainKey E caseUID line canonical) with
  | .error error => .error (.chain error)
  | .ok events =>
    match events.find? fun event =>
        event.props.get (text "redaction.case_uid") ≠ caseUID.map Hex.lower ∨
          event.props.get (text "redaction.line") ≠ line ∨
          event.props.get (text "redaction.view_canonical") ≠ canonical with
    | some event => .error (.misplacedVersion event.id)
    | none => .ok events

/-- `redactionResolve`: the line, its versions, and the head where it divides the evidence so. -/
def redactionResolve (g : E.S.State) (caseUID recordUID : Bytes) (view : CaseView) (partition : Bytes) :
    Except LedgerError (Bytes × List CaseChainEvent × Option CaseChainEvent) :=
  (redactionLine E g recordUID).bind fun line =>
    (redactionChainOf E g caseUID line view.canonical).map fun events =>
      (line, events, events.getLast?.filter fun head =>
        head.props.get (text "redaction.partition") = partition)

/-- A version that is to be written: `other` is what it says besides. -/
structure RedactionTerms where
  record : LedgerRecord
  view : CaseView
  /-- The digest of the partition. -/
  partition : Bytes
  grantedRuns : Bytes
  classLabels : List (Bytes × Bytes)
  caseUID : Bytes
  caseID : Bytes
  actor : Bytes
  role : Bytes
  other : Props

namespace RedactionTerms

variable (terms : RedactionTerms)

/-- The properties of a version. -/
def props (line : Bytes) : Props :=
  ((((terms.other.set (text "redaction.case_uid") (terms.caseUID.map Hex.lower)).set
    (text "redaction.record_uid") terms.record.uid).set
    (text "redaction.view_canonical") terms.view.canonical).set
    (text "redaction.partition") terms.partition).set (text "redaction.line") line

end RedactionTerms

/-- `redactionAppend`. -/
def redactionAppend (tx : DisclosureTx E) (head : Option CaseChainEvent) (terms : RedactionTerms)
    (line : Bytes) (caseN actorN recordN viewN : Nat) :
    Except LedgerError (CaseChainEvent × DisclosureTx E) :=
  (tx.chainEvent E (redactionChain E)
      (redactionChainKey E terms.caseUID line terms.view.canonical) head (terms.props line)).bind
    fun (event, tx) =>
      (tx.edge E event.id caseN (disclosureEdgeInCase E.T) noProps).bind fun tx =>
      (tx.edge E event.id recordN (disclosureEdgeGrants E.T)
        (noProps.set (text "granted_runs") terms.grantedRuns)).bind fun tx =>
      (tx.edge E event.id viewN (disclosureEdgeAuthorisedBy E.T) noProps).bind fun tx =>
      (tx.edge E event.id actorN (disclosureEdgePerformedBy E.T)
        (noProps.set (text "role") terms.role)).map fun tx => (event, tx)

/-- The transaction of `RedactionCommit`, after the checks. -/
def redactionWrite (g : E.S.State) (terms : RedactionTerms) (line : Bytes)
    (events : List CaseChainEvent) : Except LedgerError (CaseChainEvent × E.S.State) :=
  ((disclosureBegin E g).caseNode E terms.caseUID terms.caseID).bind fun (caseN, _, tx) =>
  (tx.actorNode E terms.actor).bind fun (actorN, _, tx) =>
  (tx.recordNode E terms.classLabels terms.record caseN).bind fun (recordN, tx) =>
  (tx.viewNode E terms.classLabels terms.view).bind fun (viewN, tx) =>
  (redactionAppend E tx events.getLast? terms line caseN actorN recordN viewN).map fun (event, tx) =>
    (event, tx.graph)

/-- What a commit leaves: the line, the version in force, whether it was written, and the ledger. -/
structure Committed (E : LedgerEnv) where
  line : Bytes
  version : CaseChainEvent
  written : Bool
  ledger : E.S.State

/-- `RedactionCommit`: `refusal` is what the case's lifecycle says. -/
def redactionCommit (g : E.S.State) (refusal : Bool) (terms : RedactionTerms) :
    Except LedgerError (Committed E) :=
  if terms.record.caseUID.map Hex.lower ≠ terms.caseUID.map Hex.lower then .error .otherCase
  else if refusal then .error .refusedState
  else
    (disclosureFind E g (disclosureNodeReclass E.T) (text "reclass.superseded_uid")
        terms.record.uid).bind fun
      | some event => .error (.superseded terms.record.uid
          (event.props.get (text "reclass.record_uid")))
      | none =>
        (redactionResolve E g terms.caseUID terms.record.uid terms.view terms.partition).bind fun
          | (line, _, some head) => .ok ⟨line, head, false, g⟩
          | (line, events, none) =>
            (redactionWrite E g terms line events).map fun (event, g) => ⟨line, event, true, g⟩

end Mutant.Builtin
