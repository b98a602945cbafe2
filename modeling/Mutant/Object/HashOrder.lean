import Mutant.Object.Inspect

/-!
# The order of a hash's entries

A float is its 64 bits.  Two numbers compare by their values, which times `2 ^ 1074` are integers; an
infinity stands where the number after the largest finite one would.
-/

namespace Mutant.Object

open Mutant.Security (Bytes Primitives text)

/-! ### Floats -/

/-- The bits without the sign. -/
def magnitude (bits : UInt64) : Nat := bits.toNat % 2 ^ 63

/-- `math.Signbit`. -/
def signbit (bits : UInt64) : Bool := decide (2 ^ 63 ≤ bits.toNat)

/-- `math.IsNaN`. -/
def isNaN (bits : UInt64) : Bool := decide (0x7FF * 2 ^ 52 < magnitude bits)

/-- What a number counts to, in units of the smallest one. -/
def units (magnitude : Nat) : Nat :=
  let exponent := magnitude / 2 ^ 52
  let fraction := magnitude % 2 ^ 52
  if exponent = 0 then fraction else (2 ^ 52 + fraction) * 2 ^ (exponent - 1)

def number (bits : UInt64) : Int :=
  if signbit bits then -units (magnitude bits) else units (magnitude bits)

def floatKeyLess (left right : UInt64) : Bool :=
  if isNaN left || isNaN right then
    if isNaN left != isNaN right then isNaN right else decide (left < right)
  else if number left ≠ number right then decide (number left < number right)
  else signbit left && !signbit right

def Rendering.ordered (R : Rendering) : Rendering := { R with floatKeyLess := Object.floatKeyLess }

/-! ### Keys -/

/-- `HashKey` of the objects that can be keys. -/
def Obj.hashKey (P : Primitives) : Obj → Option HashKey
  | .boolean value => some ⟨text "BOOLEAN", if value then 1 else 0, []⟩
  | .integer value => some ⟨text "INTEGER", .ofInt value, []⟩
  | .float bits => some ⟨text "FLOAT", bits, []⟩
  | .string value => some ⟨text "STRING", 0, value⟩
  | .bytes value _ => some ⟨text "BYTES", 0, (P.sha256 value).toList⟩
  | _ => none

/-! ### What lists a hash -/

variable (R : Rendering) (pairs : List RenderedPair)

def keys : List Obj := (sortedPairs R pairs).map RenderedPair.keyObj

def values : List Bytes := (sortedPairs R pairs).map RenderedPair.value

def entries : List (Obj × Bytes) := (sortedPairs R pairs).map fun pair => (pair.keyObj, pair.value)

/-- The keys and the values that a for-in loop goes through. -/
def newIterator : List Obj × List Bytes :=
  ((sortedPairs R pairs).map RenderedPair.keyObj, (sortedPairs R pairs).map RenderedPair.value)

end Mutant.Object
