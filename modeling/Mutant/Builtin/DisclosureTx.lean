import Mutant.Builtin.CaseChain
import Mutant.Ledger.Schema
import Mathlib.Data.List.Sort

/-!
# Writing to the ledger

The disclosure family writes its nodes in transactions: a node has one label, its whole property map
in its blob, and its lookup keys in the index.  A node that is already there under its key is used
again.  The store that a ledger is kept in is any `GraphStore`.
-/

namespace Mutant.Builtin

open Mutant.Ledger
open Mutant.Security (Bytes Primitives text)

/-- `ledgerPropertyBlob` and `ledgerDecodeProperties`: what is written is read back. -/
structure LedgerCodec extends PropertyCodec where
  encode : Props → Option Bytes
  decode_encode : ∀ props blob, encode props = some blob → decode blob = some props

/-- What the ledger's functions rest on. -/
structure LedgerEnv where
  P : Primitives
  C : LedgerCodec
  T : StoreTypes
  S : GraphStore

/-- Why a read or a write of the family is refused. -/
inductive LedgerError
  | store (error : StoreError)
  | undecodable (node : Nat)
  | unencodable
  /-- The ledger holds more than one node under a key that is written once. -/
  | repeated (label : Nat) (key value : Bytes) (count : Nat)
  /-- A node that is there differs from the one to be written. -/
  | mismatch (label : Nat) (value field : Bytes)
  | notRecord (node : Nat) (record : Bytes)
  | lineTooLong (record : Bytes)
  | chain (error : CaseChainError)
  | misplacedVersion (event : Nat)
  | superseded (record by_ : Bytes)
  | refusedState
  | ownReclassification
  | otherCase
  | otherLength
  | otherPlaintext
  | otherChanges
  | cycle (path : List Bytes)
  | alreadyReclassified (record successor : Bytes)
deriving DecidableEq

/-- `disclosureNode`. -/
structure DisclosureNode where
  id : Nat
  props : Props
deriving DecidableEq

/-- `disclosureTx`: the ledger as it was begun on, the ledger with what is buffered, and the nodes
`findOrAdd` has buffered. -/
structure DisclosureTx (E : LedgerEnv) where
  ledger : E.S.State
  graph : E.S.State
  added : List ((Nat × Bytes × Bytes) × DisclosureNode)

def noProps : Props := ⟨[], Props.increasing_nil⟩

variable (E : LedgerEnv)

def disclosureBegin (g : E.S.State) : DisclosureTx E := ⟨g, g, []⟩

/-- `disclosureDecode`. -/
def disclosureDecode (node : Node) : Except LedgerError DisclosureNode :=
  match E.C.decode node.properties with
  | none => .error (.undecodable node.id)
  | some props => .ok ⟨node.id, props⟩

/-- The nodes that are indexed by a value of a key. -/
def nodesUnder (g : E.S.State) (key value : Bytes) : Except LedgerError (List Node) :=
  ((E.S.nodesByProperty g key value).mapError .store).bind fun ids =>
    if ids = [] then .ok [] else (E.S.getNodes g ids).mapError .store

/-- `disclosureFind`. -/
def disclosureFind (g : E.S.State) (label : Nat) (key value : Bytes) :
    Except LedgerError (Option DisclosureNode) :=
  (nodesUnder E g key value).bind fun nodes =>
    match nodes.filter fun node => label ∈ node.labels with
    | [] => .ok none
    | [node] => (disclosureDecode E node).map some
    | found => .error (.repeated label key value found.length)

/-- `ledgerIDFrom`. -/
def ledgerIDFrom (data : Bytes) : Nat :=
  let id := BigEndian.get ((E.P.sha256 data).toList.take 8)
  if id = 0 then 1 else id

namespace DisclosureTx

variable (tx : DisclosureTx E)

/-- `node`. -/
def node (label : Nat) (props : Props) : Except LedgerError (Nat × DisclosureTx E) :=
  match E.C.encode props with
  | none => .error .unencodable
  | some blob =>
    let indexed := (disclosureKeys E.T label).filterMap fun key =>
      (KeyMap.get? key props.entries).map fun value => (key, value)
    ((E.S.addNode tx.graph [label] blob indexed).mapError .store).map fun (id, g) =>
      (id, { tx with graph := g })

/-- `edge`. -/
def edge (src dst label : Nat) (props : Props) : Except LedgerError (DisclosureTx E) :=
  match if props = noProps then some [] else E.C.encode props with
  | none => .error .unencodable
  | some blob =>
    ((E.S.addEdge tx.graph src dst [label] blob).mapError .store).map fun g =>
      { tx with graph := g }

/-- The node of a key, buffered or in the ledger. -/
def find (label : Nat) (key value : Bytes) : Except LedgerError (Option DisclosureNode) :=
  match tx.added.lookup (label, key, value) with
  | some node => .ok (some node)
  | none => disclosureFind E tx.ledger label key value

/-- `findOrAdd`: the node's id, and whether it is new. -/
def findOrAdd (label : Nat) (key : Bytes) (props : Props) (mustMatch : List Bytes) :
    Except LedgerError (Nat × Bool × DisclosureTx E) :=
  (tx.find E label key (props.get key)).bind fun
    | some found =>
      match mustMatch.find? fun field => found.props.get field ≠ props.get field with
      | some field => .error (.mismatch label (props.get key) field)
      | none => .ok (found.id, false, tx)
    | none =>
      (tx.node E label props).map fun (id, tx) =>
        (id, true, { tx with added := ((label, key, props.get key), ⟨id, props⟩) :: tx.added })

/-- `caseNode`. -/
def caseNode (caseUID caseID : Bytes) : Except LedgerError (Nat × Bool × DisclosureTx E) :=
  tx.findOrAdd E (disclosureNodeCase E.T) (text "case.uid")
    ((noProps.set (text "case.uid") (caseUID.map Hex.lower)).set (text "case.id") caseID) []

/-- `actorNode`. -/
def actorNode (name : Bytes) : Except LedgerError (Nat × Bool × DisclosureTx E) :=
  tx.findOrAdd E (disclosureNodeActor E.T) (text "actor.id")
    ((noProps.set (text "actor.id") (Decimal.ofNat (ledgerIDFrom E name))).set (text "actor.name")
      name) []

/-- The finder of `classNodes`. -/
def classNode (labels : List (Bytes × Bytes)) (tag : Bytes) :
    Except LedgerError (Nat × Bool × DisclosureTx E) :=
  tx.findOrAdd E (disclosureNodeClass E.T) (text "class.tag")
    ((noProps.set (text "class.tag") tag).set (text "class.label") ((labels.lookup tag).getD [])) []

end DisclosureTx

/-- A record file, as far as the ledger records it: `other` is what its node says besides. -/
structure LedgerRecord where
  recordUID : Bytes
  caseUID : Bytes
  sha256 : Bytes
  headerSHA256 : Bytes
  plaintextLength : Nat
  /-- What its sealed metadata says, opened with the case key. -/
  plaintextSHA256 : Bytes
  /-- The tallies of its classes: tag, segments and bytes. -/
  classes : List (Bytes × Nat × Nat)
  other : Props

namespace LedgerRecord

/-- The record's uid, as the ledger writes it. -/
def uid (record : LedgerRecord) : Bytes := record.recordUID.map Hex.lower

/-- The properties of a record's node. -/
def props (record : LedgerRecord) : Props :=
  (((record.other.set (text "record.case_uid") (record.caseUID.map Hex.lower)).set
    (text "record.sha256") record.sha256).set
    (text "record.header_sha256") record.headerSHA256).set (text "record.uid") record.uid

end LedgerRecord

/-- `caseView`, as far as the ledger records it. -/
structure CaseView where
  label : Bytes
  canonical : Bytes
  tags : List Bytes
  other : Props

/-- `disclosureViewFingerprint`. -/
def disclosureViewFingerprint (view : CaseView) : Bytes :=
  let tags := (view.tags.map fun tag => tag.map Hex.lower).insertionSort (· ≤ ·)
  Hex.encode (E.P.sha256 (text "mutant-view-v1|" ++ view.canonical ++ text "|" ++
    (text ",").intercalate tags)).toList

namespace DisclosureTx

variable (tx : DisclosureTx E)

/-- One class of a record that is new. -/
def classifiedAs (labels : List (Bytes × Bytes)) (record : Nat) (tally : Bytes × Nat × Nat) :
    Except LedgerError (DisclosureTx E) :=
  (tx.classNode E labels tally.1).bind fun (id, _, tx) =>
    tx.edge E record id (disclosureEdgeClassifiedAs E.T)
      ((noProps.set (text "segments") (Decimal.ofNat tally.2.1)).set (text "bytes")
        (Decimal.ofNat tally.2.2))

/-- `recordNode`. -/
def recordNode (labels : List (Bytes × Bytes)) (record : LedgerRecord) (caseN : Nat) :
    Except LedgerError (Nat × DisclosureTx E) :=
  (tx.findOrAdd E (disclosureNodeRecord E.T) (text "record.uid") record.props
      [text "record.sha256", text "record.header_sha256"]).bind fun (id, new, tx) =>
    if new then
      (tx.edge E id caseN (disclosureEdgeInCase E.T) noProps).bind fun tx =>
        (record.classes.foldlM (fun (tx : DisclosureTx E) tally =>
          tx.classifiedAs E labels id tally) tx).map fun tx => (id, tx)
    else .ok (id, tx)

/-- One class that a view that is new grants. -/
def grants (labels : List (Bytes × Bytes)) (view : Nat) (tag : Bytes) :
    Except LedgerError (DisclosureTx E) :=
  (tx.classNode E labels (tag.map Hex.lower)).bind fun (id, _, tx) =>
    tx.edge E view id (disclosureEdgeGrants E.T) noProps

/-- `viewNode`. -/
def viewNode (labels : List (Bytes × Bytes)) (view : CaseView) :
    Except LedgerError (Nat × DisclosureTx E) :=
  (tx.findOrAdd E (disclosureNodeView E.T) (text "view.fp")
      (view.other.set (text "view.fp") (disclosureViewFingerprint E view)) []).bind
    fun (id, new, tx) =>
      if new then
        (view.tags.foldlM (fun (tx : DisclosureTx E) tag => tx.grants E labels id tag) tx).map
          fun tx => (id, tx)
      else .ok (id, tx)

/-- `chainAppend`: the event after the head, with its edge to the head. -/
def chainEvent (spec : CaseChainSpec) (chain : Bytes) (head : Option CaseChainEvent) (props : Props) :
    Except LedgerError (CaseChainEvent × DisclosureTx E) :=
  let event := chainAppend E.P spec chain head 0 props
  (tx.node E spec.label event.props).bind fun (id, tx) =>
    let event := { event with id := id }
    match head with
    | none => .ok (event, tx)
    | some head =>
      (tx.edge E id head.id (disclosureEdgeRevises E.T) noProps).map fun tx => (event, tx)

end DisclosureTx

end Mutant.Builtin
