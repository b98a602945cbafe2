import Mutant.Lib.DeepSearch
import Mutant.Object.Inspect

/-!
# Classified plaintext at the sinks

A builtin that sends a value out of the process looks through the value for a buffer that carries the
mark of classified plaintext, and refuses a value that holds one, or that is nested too deep to tell.
-/

namespace Mutant.Builtin

open Mutant.Object
open Mutant.Security (Bytes text)

/-- `classifiedWalkDepth`. -/
def classifiedWalkDepth : Nat := 64

/-- The mark of classified plaintext on a buffer, opened or still sealed. -/
def mark : Obj → Option Classification
  | .bytes _ classified => classified
  | .encrypted _ _ _ classified => classified
  | _ => none

/-- A buffer that was found; the plaintext of one that is still sealed is not known. -/
structure FoundBuffer where
  value : Option Bytes
  classified : Classification
  deriving DecidableEq

/-- What the walk of `FindClassified` does at an object: containers are visited once, and the wrappers
of values each time. Nil objects are passed over at any depth. -/
def classifiedSight (h : Heap) (r : Ref) : DeepSearch.Sight Ref FoundBuffer :=
  match h r with
  | .bytes value (some c) => .hit ⟨some value, c⟩
  | .encrypted _ _ _ (some c) => .hit ⟨none, c⟩
  | .array elements => .once elements.reduceOption
  | .hash pairs => .once (pairs.flatMap fun pair => [pair.key, pair.value]).reduceOption
  | .struct _ _ fields => .once (fields.map Prod.snd).reduceOption
  | .error _ related => .once ((sortedByName related).map Prod.snd).reduceOption
  | .multiValue values => .each values.reduceOption
  | .enumValue _ _ value => .each value.toList
  | .cell value => .each value.toList
  | .returnValue value => .each value.toList
  | _ => .each []

/-- `FindClassified`: the first classified buffer in a value, and whether the value was too deep to be
looked at all the way down. -/
def findClassified (h : Heap) : Option Ref → Option FoundBuffer × Bool
  | none => (none, false)
  | some r =>
    let (found, state) := DeepSearch.search (classifiedSight h) (classifiedWalkDepth + 1) r ⟨[], false⟩
    (found, state.deep)

variable (R : Rendering)

/-- How a class is named. -/
def className (label tag : Bytes) : Bytes :=
  if label ≠ [] then R.quote label
  else if 16 ≤ tag.length then text "a class this run cannot name (" ++ tag.take 16 ++ text ")"
  else text "a class this run cannot name"

/-- `DescribeClassified`. -/
def describeClassified (b : FoundBuffer) : Bytes :=
  let c := b.classified
  let names := c.tags.mapIdx fun i tag => className R ((c.labels[i]?).getD []) tag
  let size := match b.value with
    | some value => Decimal.ofNat value.length ++ text " bytes of plaintext"
    | none => text "a sealed value"
  size ++ text " read from record " ++ c.recordUID ++ text ", classified " ++ join (text " and ") names

/-- `refuseClassified` for the argument at a place. -/
def refuseArgument (h : Heap) (op : Bytes) (i : Nat) (arg : Option Ref) : Option Bytes :=
  match findClassified h arg with
  | (some found, _) =>
    some (op ++ text ": argument " ++ Decimal.ofNat (i + 1) ++ text " holds " ++
      describeClassified R found ++
      text ". Classified plaintext does not leave the process by this route; " ++
      text "\x60record_release(buffer, reason)\x60 returns a copy that may, and records that you " ++
      text "released it")
  | (none, true) =>
    some (op ++ text ": argument " ++ Decimal.ofNat (i + 1) ++ text " is nested more than " ++
      Decimal.ofNat classifiedWalkDepth ++ text " levels deep, too deep to check for classified " ++
      text "plaintext, and a value that could not be checked is not sent")
  | (none, false) => none

/-- `refuseClassified`: the first refusal. -/
def refuseClassified (h : Heap) (op : Bytes) (args : List (Option Ref)) : Option Bytes :=
  args.zipIdx.findSome? fun (arg, i) => refuseArgument R h op i arg

end Mutant.Builtin
