import Mutant.Builtin.RedactionVersion

/-!
# Recording a reclassification

`disclose_reclassified` records that one record is the same evidence as another, sealed again under
other classes.  A record is reclassified once, and never by a record that it reclassifies itself.
-/

namespace Mutant.Builtin

open Mutant.Ledger
open Mutant.Security (Bytes text)

variable (E : LedgerEnv)

/-- `reclassSupersessionPath`: the records from one to another, each reclassifying the next.  The
first one has the empty uid for its parent, and the way back ends at that uid. -/
def reclassSupersessionPath (g : E.S.State) (start target : Bytes) :
    Except LedgerError (Option (List Bytes)) :=
  -- every uid that is queued but the first is the other end of an edge
  Breadth.search (redactionReclassifies E g) [] start target ((E.S.edges g).length + 1)

/-- A reclassification that is to be recorded: the record, the one it supersedes, and the text of
the ranges whose class changed. -/
structure ReclassTerms where
  current : LedgerRecord
  previous : LedgerRecord
  changed : Bytes
  /-- The uid drawn for the event. -/
  eventUID : Bytes
  classLabels : List (Bytes × Bytes)
  caseUID : Bytes
  caseID : Bytes
  actor : Bytes
  role : Bytes
  other : Props

namespace ReclassTerms

variable (terms : ReclassTerms)

def newUID : Bytes := terms.current.uid

def oldUID : Bytes := terms.previous.uid

def pair : Bytes := terms.oldUID ++ text ">" ++ terms.newUID

/-- The properties of the event. -/
def props : Props :=
  ((((terms.other.set (text "reclass.uid") terms.eventUID).set (text "reclass.pair") terms.pair).set
    (text "reclass.record_uid") terms.newUID).set
    (text "reclass.superseded_uid") terms.oldUID).set (text "reclass.changed") terms.changed

end ReclassTerms

/-- The transaction of `reclassWrite`, after the checks. -/
def reclassTransaction (g : E.S.State) (terms : ReclassTerms) : Except LedgerError (Nat × E.S.State) :=
  ((disclosureBegin E g).caseNode E terms.caseUID terms.caseID).bind fun (caseN, _, tx) =>
  (tx.actorNode E terms.actor).bind fun (actorN, _, tx) =>
  (tx.recordNode E terms.classLabels terms.current caseN).bind fun (currentN, tx) =>
  (tx.recordNode E terms.classLabels terms.previous caseN).bind fun (previousN, tx) =>
  (tx.node E (disclosureNodeReclass E.T) terms.props).bind fun (event, tx) =>
  (tx.edge E currentN previousN (disclosureEdgeSupersedes E.T) noProps).bind fun tx =>
  (tx.edge E event caseN (disclosureEdgeInCase E.T) noProps).bind fun tx =>
  (tx.edge E event actorN (disclosureEdgePerformedBy E.T)
    (noProps.set (text "role") terms.role)).map fun tx => (event, tx.graph)

/-- `reclassWrite`: the event's node, whether it was written, and the ledger.  `refusal` is what the
case's lifecycle says. -/
def reclassWrite (g : E.S.State) (refusal : Bool) (terms : ReclassTerms) :
    Except LedgerError (Nat × Bool × E.S.State) :=
  (disclosureFind E g (disclosureNodeReclass E.T) (text "reclass.pair") terms.pair).bind fun
    | some existing =>
      if existing.props.get (text "reclass.changed") ≠ terms.changed then .error .otherChanges
      else .ok (existing.id, false, g)
    | none =>
      (reclassSupersessionPath E g terms.oldUID terms.newUID).bind fun
        | some path => .error (.cycle path)
        | none =>
          (reclassSuccessors E g terms.oldUID).bind fun successors =>
            match successors.find? (· ≠ terms.newUID) with
            | some successor => .error (.alreadyReclassified terms.oldUID successor)
            | none =>
              if refusal then .error .refusedState
              else (reclassTransaction E g terms).map fun (event, g) => (event, true, g)

/-- `DiscloseReclassified`, up to what it reports of the disclosures it affects. -/
def discloseReclassified (g : E.S.State) (refusal : Bool) (terms : ReclassTerms) :
    Except LedgerError (Nat × Bool × E.S.State) :=
  if terms.newUID = terms.oldUID then .error .ownReclassification
  else if terms.current.caseUID.map Hex.lower ≠ terms.caseUID.map Hex.lower ∨
      terms.previous.caseUID.map Hex.lower ≠ terms.caseUID.map Hex.lower then .error .otherCase
  else if terms.current.plaintextLength ≠ terms.previous.plaintextLength then .error .otherLength
  else if terms.current.plaintextSHA256 ≠ terms.previous.plaintextSHA256 then .error .otherPlaintext
  else reclassWrite E g refusal terms

/-! ### Runs of the ledger -/

/-- A call that may write to the ledger, with what the case's lifecycle says of it. -/
inductive LedgerCall
  | commit (refusal : Bool) (terms : RedactionTerms)
  | reclassify (refusal : Bool) (terms : ReclassTerms)

/-- The ledger after a call that is accepted, and the records it records as reclassifying one. -/
def LedgerCall.run (g : E.S.State) : LedgerCall → Except LedgerError (E.S.State × List Bytes)
  | .commit refusal terms => (redactionCommit E g refusal terms).map fun done => (done.ledger, [])
  | .reclassify refusal terms =>
    (discloseReclassified E g refusal terms).map fun (_, recorded, g) =>
      (g, if recorded then [terms.newUID] else [])

/-- The ledger after calls that are all accepted, and the records they record as reclassifying one,
in order. -/
def runCalls (g : E.S.State) : List LedgerCall → Except LedgerError (E.S.State × List Bytes)
  | [] => .ok (g, [])
  | call :: calls =>
    (call.run E g).bind fun (g, news) =>
      (runCalls g calls).map fun (g, news') => (g, news ++ news')

end Mutant.Builtin
