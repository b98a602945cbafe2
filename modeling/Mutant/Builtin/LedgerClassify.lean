import Mutant.Builtin.CaseChain
import Mutant.Ledger.Schema

/-!
# Classifications of the ledger's nodes

A script's node is classified in a case by a chain of events, each of which names the classes the
node holds from then on.
-/

namespace Mutant.Builtin

open Mutant.Ledger
open Mutant.Security (Bytes Primitives text)

/-- `strings.ToLower` of a uid, which is ASCII. -/
def lowerUID (uid : Bytes) : Bytes := uid.map Hex.lower

/-- `classifyChain`. -/
def classifyChain (T : StoreTypes) : CaseChainSpec := ⟨disclosureNodeClassEvent T, text "classify"⟩

/-- `classifyChainKey`. -/
def classifyChainKey (caseUID : Bytes) (node : Nat) : Bytes :=
  lowerUID caseUID ++ text "|" ++ Decimal.ofNat node

/-- `classifyEvent`. -/
structure ClassifyEvent where
  event : CaseChainEvent
  tags : List Bytes
  labels : List Bytes

/-- Why a classification is refused. -/
inductive ClassifyError
  | chain (error : CaseChainError)
  | misplaced (event node : Nat)
  | tag (event : Nat) (tag : Bytes)
  | order (event : Nat)
  | labels (event : Nat)
  | count (event labels tags : Nat)
deriving DecidableEq, Repr

/-- `2*len(security.ClassTag{})`. -/
def classTagLength : Nat := 64

/-- The loop over the tags, with the tag before. -/
def classifyTagsCheck (event : Nat) : (before : Option Bytes) → List Bytes → Except ClassifyError Unit
  | _, [] => .ok ()
  | before, tag :: tags =>
    if Hex.decode tag = none ∨ tag.length ≠ classTagLength ∨ tag.map Hex.lower ≠ tag then
      .error (.tag event tag)
    else if ∃ last ∈ before, tag ≤ last then .error (.order event)
    else classifyTagsCheck event (some tag) tags

/-- A list of strings, as `json.Unmarshal` reads one: a null leaves a string empty, or the list. -/
def stringList? : Json → Option (List Bytes)
  | .null => some []
  | .array items =>
    items.mapM fun
      | .string value => some value
      | .null => some []
      | _ => none
  | _ => none

/-- `classifyTerms`. -/
def classifyTerms (event : CaseChainEvent) : Except ClassifyError (List Bytes × List Bytes) :=
  let written := event.props.get (text "classify.tags")
  let tags := if written = [] then [] else written.splitOn 0x2C
  (classifyTagsCheck event.id none tags).bind fun _ =>
    match (Json.decode (event.props.get (text "classify.classes"))).bind stringList? with
    | none => .error (.labels event.id)
    | some labels =>
      if labels.length ≠ tags.length then .error (.count event.id labels.length tags.length)
      else .ok (tags, labels)

/-- One turn of the loop over the chain's events. -/
def classificationEvent (caseUID : Bytes) (node : Nat) (event : CaseChainEvent) :
    Except ClassifyError ClassifyEvent :=
  if event.props.get (text "classify.case_uid") ≠ caseUID ∨
      event.props.get (text "classify.target") ≠ Decimal.ofNat node then
    .error (.misplaced event.id node)
  else (classifyTerms event).map fun terms => ⟨event, terms.1, terms.2⟩

/-- `classificationRead`. -/
def classificationRead (P : Primitives) (D : PropertyCodec) (T : StoreTypes) (g : CaseChainSource)
    (caseUID : Bytes) (node : Nat) : Except ClassifyError (List ClassifyEvent) :=
  match caseChainRead P D g (classifyChain T) (classifyChainKey (lowerUID caseUID) node) with
  | .error error => .error (.chain error)
  | .ok events => events.mapM (classificationEvent (lowerUID caseUID) node)

/-- `tags`: the classes in force, those of the last event. -/
def classificationTags (events : List ClassifyEvent) : List Bytes :=
  (events.getLast?.map (·.tags)).getD []

end Mutant.Builtin
