import Mathlib.Data.List.Sort
import Mutant.Lib.Decimal
import Mutant.Security.Primitives

/-!
# Objects and how they render

Objects live at addresses, so that they may be shared and may contain themselves.  Rendering an object
calls `Inspect` on what it holds; it ends only where the nesting does, so it is given a depth here, and
has no result below it or where it meets a nil object.
-/

namespace Mutant.Object

open Mutant.Security (Bytes text)

/-- The address of an object; a nil object is `none`. -/
abbrev Ref := Nat

/-- Where classified plaintext came from. -/
structure Classification where
  recordUID : Bytes
  tags : List Bytes
  labels : List Bytes
  deriving DecidableEq

structure HashKey where
  type : Bytes
  value : UInt64
  text : Bytes
  deriving DecidableEq

/-- An entry of a hash, under the key of the map that holds it. -/
structure HashPair where
  hashKey : HashKey
  key : Option Ref
  value : Option Ref
  deriving DecidableEq

/-- The position and the texts of an error. -/
structure ErrorText where
  message : Bytes
  context : Bytes
  file : Bytes
  line : Int
  column : Int
  deriving DecidableEq

/-- The kinds of objects. A map is the list of its entries, in the order in which it is ranged over. The
kinds whose rendering reads no other object are one, with their type and that rendering. -/
inductive Obj
  | integer (value : Int)
  | float (bits : UInt64)
  | boolean (value : Bool)
  | string (value : Bytes)
  | null
  | bytes (value : Bytes) (classified : Option Classification)
  | encrypted (value : Bytes) (encType : Bytes) (seed : Int) (classified : Option Classification)
  | array (elements : List (Option Ref))
  | hash (pairs : List HashPair)
  | struct (typeName : Bytes) (fieldOrder : List Bytes) (fields : List (Bytes × Option Ref))
  | error (error : ErrorText) (related : List (Bytes × Option Ref))
  | multiValue (values : List (Option Ref))
  | enumValue (typeName tag : Bytes) (value : Option Ref)
  | cell (value : Option Ref)
  | returnValue (value : Option Ref)
  | plain (type : Bytes) (rendered : Bytes)
  deriving DecidableEq

/-- The objects of a program. -/
abbrev Heap := Ref → Obj

/-- `Type`. -/
def Obj.type : Obj → Bytes
  | .integer _ => text "INTEGER"
  | .float _ => text "FLOAT"
  | .boolean _ => text "BOOLEAN"
  | .string _ => text "STRING"
  | .null => text "NULL"
  | .bytes _ _ => text "BYTES"
  | .encrypted _ _ _ _ => text "ENCRYPTED"
  | .array _ => text "ARRAY"
  | .hash _ => text "HASH"
  | .struct _ _ _ => text "STRUCT"
  | .error _ _ => text "ERROR_OBJ"
  | .multiValue _ => text "MULTI_VALUE"
  | .enumValue _ _ _ => text "ENUM_VALUE"
  | .cell _ => text "CELL"
  | .returnValue _ => text "RETURN_VALUE"
  | .plain type _ => type

/-- What the library decides: how a float renders with `%f`, how float keys are ordered, and how `%q`
quotes a text. -/
structure Rendering where
  float : UInt64 → Bytes
  floatKeyLess : UInt64 → UInt64 → Bool
  quote : Bytes → Bytes

/-- Entries by name, in the order of their names. -/
def sortedByName (entries : List (Bytes × Option Ref)) : List (Bytes × Option Ref) :=
  entries.insertionSort fun a b => a.1 ≤ b.1

/-- The names of a struct's fields in the order they render: the declaration's, and then the others by
name. -/
def fieldNames (fieldOrder : List Bytes) (fields : List (Bytes × Option Ref)) : List Bytes :=
  let declared := (fieldOrder.filter (· ∈ fields.map Prod.fst)).eraseDups
  let rest := (fields.map Prod.fst).filter (· ∉ declared)
  declared ++ rest.insertionSort (· ≤ ·)

/-- `Location`. -/
def ErrorText.location (e : ErrorText) : Bytes :=
  if e.line ≤ 0 then []
  else
    let at_ := Decimal.ofInt e.line ++ text ":" ++ Decimal.ofInt e.column
    if e.file = [] then at_ else e.file ++ text ":" ++ at_

def join (separator : Bytes) (parts : List Bytes) : Bytes := (parts.intersperse separator).flatten

/-! ### Hashes -/

/-- An entry of a hash with its key as an object, and both of them rendered. -/
structure RenderedPair where
  hashKey : HashKey
  keyObj : Obj
  key : Bytes
  value : Bytes

variable (R : Rendering)

/-- `hashKeyLess`. -/
def hashKeyLess (a b : RenderedPair) : Bool :=
  if a.keyObj.type ≠ b.keyObj.type then decide (a.keyObj.type < b.keyObj.type)
  else
    match a.keyObj, b.keyObj with
    | .integer left, .integer right => decide (left < right)
    | .string left, .string right => decide (left < right)
    | .float left, .float right => R.floatKeyLess left right
    | .bytes left _, .bytes right _ => decide (left < right)
    | .boolean left, .boolean right => !left && right
    | _, _ => decide (a.key < b.key)

/-- `compareHashKeys` answers a negative number. -/
def HashKey.less (a b : HashKey) : Bool :=
  if a.type ≠ b.type then decide (a.type < b.type)
  else if a.value ≠ b.value then decide (a.value < b.value)
  else decide (a.text < b.text)

/-- The comparison of `SortedPairs` answers a negative number. -/
def pairLess (a b : RenderedPair) : Bool :=
  if hashKeyLess R a b then true
  else if hashKeyLess R b a then false
  else a.hashKey.less b.hashKey

/-- `SortedPairs`. -/
def sortedPairs (pairs : List RenderedPair) : List RenderedPair :=
  pairs.insertionSort fun a b => pairLess R b a = false

/-- `Inspect` of a hash whose entries are rendered. -/
def inspectHash (pairs : List RenderedPair) : Bytes :=
  text "\x7b" ++ join (text ", ") ((sortedPairs R pairs).map fun pair =>
    pair.key ++ text ": " ++ pair.value) ++ text "\x7d"

/-! ### Rendering -/

variable (h : Heap)

/-- A value that prints as `null` when it is nil. -/
def orNull (render : Option Ref → Option Bytes) : Option Ref → Option Bytes
  | none => some (text "null")
  | value => render value

/-- One part for each entry by name. -/
def namedParts (separator : String) (render : Option Ref → Option Bytes)
    (entries : List (Bytes × Option Ref)) : Option (List Bytes) :=
  entries.mapM fun entry => (render entry.2).map (entry.1 ++ text separator ++ ·)

/-- The entry of a hash, rendered. -/
def renderPair (render : Option Ref → Option Bytes) (pair : HashPair) : Option RenderedPair :=
  pair.key.bind fun key => (render (some key)).bind fun keyText =>
    (render pair.value).map fun value => ⟨pair.hashKey, h key, keyText, value⟩

/-- The value of the field of a struct. -/
def fieldOf (fields : List (Bytes × Option Ref)) (name : Bytes) : Bytes × Option Ref :=
  (name, (fields.lookup name).join)

/-- `Inspect` of an object, with `render` for the objects that it holds. -/
def inspectObj (render : Option Ref → Option Bytes) : Obj → Option Bytes
  | .integer value => some (Decimal.ofInt value)
  | .float bits => some (R.float bits)
  | .boolean value => some (text (if value then "true" else "false"))
  | .string value => some value
  | .null => some []
  | .bytes value _ => some (Hex.encode value)
  | .encrypted value _ _ _ =>
    some (text "[" ++ join (text " ") (value.map fun b => Decimal.ofNat b.toNat) ++ text "]")
  | .array elements =>
    (elements.mapM render).map fun parts => text "[" ++ join (text ", ") parts ++ text "]"
  | .hash pairs => (pairs.mapM (renderPair h render)).map (inspectHash R)
  | .struct typeName fieldOrder fields =>
    (namedParts ": " render ((fieldNames fieldOrder fields).map (fieldOf fields))).map fun parts =>
      typeName ++ text " \x7b " ++ join (text ", ") parts ++ text " \x7d"
  | .error e related =>
    (namedParts "=" (orNull render) (sortedByName related)).map fun parts =>
      join (text " ") ([text "ERROR:" ++ e.message] ++
        (if e.location = [] then [] else [text "at " ++ e.location]) ++
        (if e.context = [] then [] else [text "context=" ++ e.context]) ++
        (if related = [] then []
          else [text "related=\x7b" ++ join (text ",") parts ++ text "\x7d"]))
  | .multiValue values =>
    (values.mapM (orNull render)).map fun
      | [first, []] => first
      | parts => text "(" ++ join (text ", ") parts ++ text ")"
  | .enumValue typeName tag none => some (typeName ++ text "." ++ tag)
  | .enumValue typeName tag (some value) =>
    if (h value).type = text "NULL" then some (typeName ++ text "." ++ tag)
    else (render (some value)).map fun inner => typeName ++ text "." ++ tag ++ text "(" ++ inner ++ text ")"
  | .cell value => orNull render value
  | .returnValue value => render value
  | .plain _ rendered => some rendered

/-- `Inspect`, to a depth. -/
def inspect : (depth : Nat) → Option Ref → Option Bytes
  | 0, _ => none
  | _ + 1, none => none
  | depth + 1, some r => inspectObj R h (inspect depth) (h r)

end Mutant.Object
