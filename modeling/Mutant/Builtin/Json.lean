import Mutant.Builtin.Audit
import Mutant.Lib.KeyMap

/-!
# `json_stringify` and `json_parse`

Values of the language to the text of a document and back.  The library's marshalling and decoding
are those of `Json`; what the builtins refuse beside it (rewritten text, repeated keys, deep nesting)
is modelled here.

A hash, and a map of the host language, is listed in the order of its keys.
-/

namespace Mutant.Builtin

open Mutant.Security (Bytes)

/-! ### Values -/

/-- The objects `json_stringify` tells apart; a `float` is its bits. -/
inductive Object
  | string (value : Bytes)
  | bytes (value : Bytes)
  | integer (value : Int64)
  | float (bits : UInt64)
  | boolean (value : Bool)
  | null
  | array (elements : List Object)
  /-- A hash whose keys are all STRING. -/
  | hash (pairs : List (Bytes × Object))
  /-- A hash with a key of another type. -/
  | mixedHash (keyType : Bytes)
  | struct (fields : List (Bytes × Object))
  /-- An object of any other type. -/
  | other (type : Bytes)
deriving Repr

/-- How floats are written, when they are finite, and read. -/
structure FloatText where
  write : UInt64 → Option Bytes
  read : Bytes → Option UInt64

/-- The errors of the two builtins. -/
inductive JsonError
  | keyNotString (keyType : Bytes)
  | unsupported (type : Bytes)
  | notFinite
  | notUTF8
  | halfSurrogate
  | notJSON
  | tooDeep
  | repeatedKey (key : Bytes)
  | floatRange
deriving DecidableEq, Repr

/-! ### Writing -/

mutual

/-- `objectToJSONValue`, with a float as `jsonFloatsStayFloat` and the encoder write it. -/
def objectToJSONValue (N : FloatText) : Object → Except JsonError Json
  | .string value => .ok (.string value)
  | .bytes value => .ok (.string (Hex.encode value))
  | .integer value => .ok (jsonInt value.toInt)
  | .float bits =>
    match N.write bits with
    | some literal => .ok (.number literal)
    | none => .error .notFinite
  | .boolean value => .ok (.bool value)
  | .null => .ok .null
  | .array elements => (elementsToJSON N elements).map .array
  | .hash pairs => (pairsToJSON N pairs).map .object
  | .mixedHash keyType => .error (.keyNotString keyType)
  | .struct fields => (pairsToJSON N fields).map .object
  | .other type => .error (.unsupported type)

def elementsToJSON (N : FloatText) : List Object → Except JsonError (List Json)
  | [] => .ok []
  | element :: elements =>
    (objectToJSONValue N element).bind fun value =>
      (elementsToJSON N elements).map (value :: ·)

def pairsToJSON (N : FloatText) : List (Bytes × Object) → Except JsonError (List (Bytes × Json))
  | [] => .ok []
  | (key, object) :: pairs =>
    (objectToJSONValue N object).bind fun value =>
      (pairsToJSON N pairs).map ((key, value) :: ·)

end

/-- `JsonStringify`. -/
def jsonStringify (N : FloatText) (object : Object) : Except JsonError Bytes :=
  (objectToJSONValue N object).map fun value => value.render Json.compact 0

/-! ### Text the decoder would change -/

/-- `jsonEscapeUnit` at the front of a text. -/
def jsonEscapeUnit : Bytes → Option Nat
  | 0x5C :: 0x75 :: rest => Json.hex4? rest
  | _ => none

/-- The half of a pair of surrogates that comes first. -/
def isHigh (unit : Nat) : Bool := 0xD800 ≤ unit && unit ≤ 0xDBFF

/-- The half that comes second. -/
def isLow (unit : Nat) : Bool := 0xDC00 ≤ unit && unit ≤ 0xDFFF

/-- How many bytes after a backslash the scan passes over: nothing where the escape is half of a
pair of surrogates. -/
def escapeSkip (atSlash : Bytes) : Option Nat :=
  match jsonEscapeUnit atSlash with
  | none => some 1
  | some unit =>
    if isHigh unit then
      if (jsonEscapeUnit (atSlash.drop 6)).any isLow then some 11 else none
    else if isLow unit then none
    else some 5

/-- The scan of `jsonTextCheck`, less `skip` bytes it passes over: no string holds half of a pair of
surrogates. -/
def jsonScan : (skip : Nat) → (inString : Bool) → Bytes → Bool
  | _, _, [] => true
  | skip + 1, inString, _ :: rest => jsonScan skip inString rest
  | 0, false, c :: rest => jsonScan 0 (c = 0x22) rest
  | 0, true, c :: rest =>
    if c = 0x22 then jsonScan 0 false rest
    else if c = 0x5C then
      match escapeSkip (c :: rest) with
      | some skip => jsonScan skip true rest
      | none => false
    else jsonScan 0 true rest

/-- `jsonTextCheck`. -/
def jsonTextCheck (input : Bytes) : Except JsonError Unit :=
  if Utf8.valid input = false then .error .notUTF8
  else if jsonScan 0 false input then .ok ()
  else .error .halfSurrogate

/-! ### Reading -/

def maxJSONDepth : Nat := 10000

mutual

/-- `decodeJSONValue`: the value the decoder's tokens make, with the maps of its objects. -/
def decodeJSONValue (depth : Nat) : Json → Except JsonError Json
  | .array items =>
    if maxJSONDepth ≤ depth then .error .tooDeep
    else (decodeJSONItems (depth + 1) items).map .array
  | .object members =>
    if maxJSONDepth ≤ depth then .error .tooDeep
    else (decodeJSONMembers (depth + 1) [] members).map .object
  | value => .ok value

/-- The loop over an array. -/
def decodeJSONItems (depth : Nat) : List Json → Except JsonError (List Json)
  | [] => .ok []
  | item :: items =>
    (decodeJSONValue depth item).bind fun value =>
      (decodeJSONItems depth items).map (value :: ·)

/-- The loop over an object, with the fields so far. -/
def decodeJSONMembers (depth : Nat) (fields : List (Bytes × Json)) :
    List (Bytes × Json) → Except JsonError (List (Bytes × Json))
  | [] => .ok fields
  | (key, member) :: members =>
    if key ∈ fields.map Prod.fst then .error (.repeatedKey key)
    else
      (decodeJSONValue depth member).bind fun value =>
        decodeJSONMembers depth (KeyMap.insert key value fields) members

end

/-- `decodeJSONDocument`. -/
def decodeJSONDocument (input : Bytes) : Except JsonError Json :=
  (jsonTextCheck input).bind fun _ =>
    match Json.read input with
    | some value => decodeJSONValue 0 value
    | none => .error .notJSON

/-- A number: one with a point or an exponent is a FLOAT, and one too wide for INTEGER is kept as
its text. -/
def jsonNumberToObject (N : FloatText) (literal : Bytes) : Except JsonError Object :=
  if literal.any fun c => c = 0x2E || c = 0x65 || c = 0x45 then
    match N.read literal with
    | some bits => .ok (.float bits)
    | none => .error .floatRange
  else
    match int64? literal with
    | some i => .ok (.integer (Int64.ofInt i))
    | none => .ok (.string literal)

mutual

/-- `jsonValueToObject`. -/
def jsonValueToObject (N : FloatText) : Json → Except JsonError Object
  | .null => .ok .null
  | .bool value => .ok (.boolean value)
  | .string value => .ok (.string value)
  | .number literal => jsonNumberToObject N literal
  | .array items => (itemsToObject N items).map .array
  | .object members => (membersToObject N members).map .hash

def itemsToObject (N : FloatText) : List Json → Except JsonError (List Object)
  | [] => .ok []
  | item :: items =>
    (jsonValueToObject N item).bind fun object =>
      (itemsToObject N items).map (object :: ·)

def membersToObject (N : FloatText) : List (Bytes × Json) → Except JsonError (List (Bytes × Object))
  | [] => .ok []
  | (key, member) :: members =>
    (jsonValueToObject N member).bind fun object =>
      (membersToObject N members).map ((key, object) :: ·)

end

/-- `JsonParse`. -/
def jsonParse (N : FloatText) (input : Bytes) : Except JsonError Object :=
  (decodeJSONDocument input).bind (jsonValueToObject N)

end Mutant.Builtin
