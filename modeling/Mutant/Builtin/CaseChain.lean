import Mutant.Ledger.Store
import Mutant.Security.RecordFile

/-!
# Event chains

The records of a case in the ledger say what order they happened in: every event names the uid of
the one before it, and its uid is a hash over everything else it says.  `caseChainRead` puts the
events of a chain in order, or refuses.
-/

namespace Mutant.Builtin

open Mutant.Ledger
open Mutant.Security (Bytes Primitives text lengthPrefixed)

/-- `caseChainSpec`: the label of a chain's events, and what their properties' names start with. -/
structure CaseChainSpec where
  label : Nat
  keyPrefix : Bytes
deriving DecidableEq, Repr

def CaseChainSpec.key (spec : CaseChainSpec) (name : String) : Bytes :=
  spec.keyPrefix ++ text "." ++ text name

/-- `caseChainEvent`. -/
structure CaseChainEvent where
  id : Nat
  props : Props
  seq : Nat
  uid : Bytes
  prev : Bytes
deriving DecidableEq

def caseChainVersion : Bytes := text "mutant-case-chain-v1"

/-- What the hash of an event covers: every property but the uid. -/
def caseChainCovered (spec : CaseChainSpec) (props : Props) : List (Bytes × Bytes) :=
  props.entries.filter fun entry => entry.1 ≠ spec.key "uid"

/-- What `caseChainUID` hashes. -/
def caseChainMessage (spec : CaseChainSpec) (props : Props) : Bytes :=
  lengthPrefixed caseChainVersion ++ lengthPrefixed spec.keyPrefix ++
    (caseChainCovered spec props).flatMap fun entry =>
      lengthPrefixed entry.1 ++ lengthPrefixed entry.2

/-- `caseChainUID`. -/
def caseChainUID (P : Primitives) (spec : CaseChainSpec) (props : Props) : Bytes :=
  Hex.encode (P.sha256 (caseChainMessage spec props)).toList

/-- `caseChainSource`. -/
structure CaseChainSource where
  nodesByProperty : (key value : Bytes) → Except StoreError (List Nat)
  getNode : (id : Nat) → Except StoreError Node

/-- Why a chain is refused. -/
inductive CaseChainError
  | store (error : StoreError)
  | undecodable (node : Nat)
  | noPosition (node : Nat) (seq : Bytes)
  | notWritten (node : Nat) (uid want : Bytes)
  /-- Two events after one; the nodes in the order of their ids. -/
  | fork (prev : Bytes) (nodes : List Nat)
  | outOfPosition (node seq position : Nat)
  /-- Events no walk reaches: the refusal names one of them. -/
  | stray (nodes : List Nat)
deriving DecidableEq, Repr

/-- `strconv.ParseUint(s, 10, 64)`. -/
def parseUint64 (s : Bytes) : Option Nat := (Decimal.toNat? s).filter (· < 2 ^ 64)

/-- The event of a node that has the chain's label. -/
def caseChainEvent (P : Primitives) (D : PropertyCodec) (spec : CaseChainSpec) (node : Node) :
    Except CaseChainError CaseChainEvent :=
  match D.decode node.properties with
  | none => .error (.undecodable node.id)
  | some props =>
    match (parseUint64 (props.get (spec.key "seq"))).filter (· ≠ 0) with
    | none => .error (.noPosition node.id (props.get (spec.key "seq")))
    | some seq =>
      let uid := props.get (spec.key "uid")
      let want := caseChainUID P spec props
      if uid ≠ want then .error (.notWritten node.id uid want)
      else
        .ok
          { id := node.id
            props := props
            seq := seq
            uid := uid
            prev := props.get (spec.key "prev_uid") }

/-- One turn of the loop over a posting: nothing for a node that is gone, or is no event. -/
def caseChainGet (P : Primitives) (D : PropertyCodec) (g : CaseChainSource) (spec : CaseChainSpec)
    (id : Nat) : Except CaseChainError (Option CaseChainEvent) :=
  match g.getNode id with
  | .error (.notFound _) => .ok none
  | .error error => .error (.store error)
  | .ok node =>
    if spec.label ∈ node.labels then (caseChainEvent P D spec node).map some else .ok none

/-- The loop over a posting. -/
def caseChainEvents (P : Primitives) (D : PropertyCodec) (g : CaseChainSource)
    (spec : CaseChainSpec) : List Nat → Except CaseChainError (List CaseChainEvent)
  | [] => .ok []
  | id :: ids =>
    (caseChainGet P D g spec id).bind fun event =>
      (caseChainEvents P D g spec ids).map (event.toList ++ ·)

/-- The walk from the start of the chain: what is left of `byPrev`, the uid to go on from, and the
events so far.  Every turn takes a key of `byPrev` out, so there are no more turns than events. -/
def caseChainWalk : (turns : Nat) → (byPrev : List CaseChainEvent) → (prev : Bytes) →
    (out : List CaseChainEvent) →
    Except CaseChainError (List CaseChainEvent × List CaseChainEvent)
  | 0, byPrev, _, out => .ok (out, byPrev)
  | turns + 1, byPrev, prev, out =>
    match byPrev.filter (·.prev = prev) with
    | [] => .ok (out, byPrev)
    | [event] =>
      if event.seq ≠ (out.length + 1) % 2 ^ 64 then
        .error (.outOfPosition event.id event.seq (out.length + 1))
      else caseChainWalk turns (byPrev.filter (·.prev ≠ prev)) event.uid (out ++ [event])
    | next => .error (.fork prev ((next.map (·.id)).mergeSort))

/-- `caseChainRead`. -/
def caseChainRead (P : Primitives) (D : PropertyCodec) (g : CaseChainSource) (spec : CaseChainSpec)
    (chain : Bytes) : Except CaseChainError (List CaseChainEvent) :=
  match g.nodesByProperty (spec.key "chain") chain with
  | .error error => .error (.store error)
  | .ok ids =>
    (caseChainEvents P D g spec ids).bind fun events =>
      (caseChainWalk (events.length + 1) events [] []).bind fun (out, byPrev) =>
        if out.length = events.length then .ok out
        else .error (.stray (byPrev.map (·.id)))

/-- `chainAppend`: the event after the head, or the first one. -/
def chainAppend (P : Primitives) (spec : CaseChainSpec) (chain : Bytes)
    (head : Option CaseChainEvent) (id : Nat) (props : Props) : CaseChainEvent :=
  let seq := (head.map fun head => (head.seq + 1) % 2 ^ 64).getD 1
  let prev := (head.map fun head => head.uid).getD []
  let all := ((props.set (spec.key "chain") chain).set (spec.key "seq") (Decimal.ofNat seq)).set
    (spec.key "prev_uid") prev
  let uid := caseChainUID P spec all
  { id := id
    props := all.set (spec.key "uid") uid
    seq := seq
    uid := uid
    prev := prev }

/-- The chain after some appends, each with the id the store gave it. -/
def chainRun (P : Primitives) (spec : CaseChainSpec) (chain : Bytes)
    (appends : List (Nat × Props)) : List CaseChainEvent :=
  appends.foldl (fun events append =>
    events ++ [chainAppend P spec chain events.getLast? append.1 append.2]) []

end Mutant.Builtin
