import Mathlib.Logic.Function.Basic
import Mutant.Compiler.State
import Mutant.Lib.PathUpdate
import Mutant.Object.Inspect
/-!
# Values of the virtual machine, and how their parts are read and written

A value on the stack or in a variable is sealed when it is put there and opened when it is taken, so
a container that is taken is a copy: values are trees here, and writing into one makes another.

A map is the function from its keys to its entries.  Objects that hold no part a program can write
(strings, floats, functions, errors and so on) are left abstract, with what reading from one gives.
-/

namespace Mutant.Vm

open Mutant.Compiler.CompileError (declaresClause)
open Mutant.Object (Classification)

/-- A value.  `K` are the keys of hashes and `A` the objects that are not looked into. -/
inductive Value (K A : Type)
  | null
  | boolean (value : Bool)
  | integer (value : Int64)
  | array (elements : List (Value K A))
  | bytes (data : List UInt8) (classified : Option Classification)
  | hash (pairs : K → Option (Value K A × Value K A))
  | struct (typeName : String) (fields : String → Option (Value K A)) (fieldOrder : List String)
  | other (object : A)

/-- What stops a program. -/
inductive Fault
  | indexType (container got : String)
  | indexBounds (container : String) (index : Int64) (length : Nat)
  | bytesElementType (got : String)
  | bytesElementRange (value : Int64)
  | unusableKey (got : String) (write : Bool)
  | noIndexAssignment (got : String)
  | noIndex (got : String)
  | unknownField (typeName field : String) (declared : List String) (write : Bool)
  | noFields (got : String) (write : Bool)
  | raised (message : String)
deriving DecidableEq, Repr

def Fault.message : Fault → String
  | indexType container got => container ++ " index must be INTEGER, got " ++ got
  | indexBounds container index length =>
    container ++ " index out of bounds: " ++ toString index.toInt ++ " (len " ++ toString length ++
      ")"
  | bytesElementType got => "bytes element must be INTEGER, got " ++ got
  | bytesElementRange value =>
    "bytes element out of range: " ++ toString value.toInt ++ " (want 0-255)"
  | unusableKey got true => "unusable as a hashkey: " ++ got
  | unusableKey got false => "unusable as hash key: " ++ got
  | noIndexAssignment got => "index assignment not supported on " ++ got
  | noIndex got => "index operator not supported: " ++ got
  | unknownField typeName field declared false =>
    "struct " ++ typeName ++ " has no field " ++ field ++ ": " ++ declaresClause declared
  | unknownField typeName field declared true =>
    "cannot set field " ++ field ++ " on struct " ++ typeName ++ ": " ++ declaresClause declared ++
      ", and a struct's fields are fixed by its declaration"
  | noFields got false => "cannot access field on non-struct: " ++ got
  | noFields got true => "cannot set field on non-struct: " ++ got
  | raised message => message

/-- The objects that are not looked into, and which key a value is filed under in a hash: none for a
value that is not hashable. -/
structure Objects (K A : Type) where
  type : A → String
  hashKey : Value K A → Option K
  index : A → Value K A → Except Fault (Value K A)
  field : A → String → Except Fault (Value K A)

/-- `IndexOf`: the element an index means, counted from the end when it is negative. -/
def indexOf (i : Int64) (n : Nat) : Option Nat :=
  if n = 0 then none
  else if 0 ≤ i.toInt then if (n : Int) ≤ i.toInt then none else some i.toInt.toNat
  else if (n : Int) + i.toInt < 0 then none
  else some ((n : Int) + i.toInt).toNat

variable {K A : Type} (O : Objects K A)

/-- `Type`. -/
def Value.type : Value K A → String
  | .null => "NULL"
  | .boolean _ => "BOOLEAN"
  | .integer _ => "INTEGER"
  | .array _ => "ARRAY"
  | .bytes _ _ => "BYTES"
  | .hash _ => "HASH"
  | .struct _ _ _ => "STRUCT"
  | .other a => O.type a

/-- The element an index of an array or a buffer means, null where there is none. -/
def elementAt {B : Type} (elements : List B) (i : Int64) (value : B → Value K A) : Value K A :=
  match (indexOf i elements.length).bind (elements[·]?) with
  | some element => value element
  | none => .null

/-- `execIndexOperation`. -/
def execIndexOperation (left index : Value K A) : Except Fault (Value K A) :=
  match left, index with
  | .array elements, .integer i => .ok (elementAt elements i id)
  | .bytes data _, .integer i => .ok (elementAt data i fun b => .integer (Int64.ofNat b.toNat))
  | .hash pairs, index =>
    match O.hashKey index with
    | none => .error (.unusableKey (index.type O) false)
    | some key =>
      match pairs key with
      | none => .ok .null
      | some (_, value) => .ok value
  | .other a, index => O.index a index
  | left, _ => .error (.noIndex (left.type O))

/-- Whether an index that is written through lies inside a container of `n` elements. -/
def InBounds (i : Int64) (n : Nat) : Prop := 0 ≤ i.toInt ∧ i.toInt < n

instance (i : Int64) (n : Nat) : Decidable (InBounds i n) := inferInstanceAs (Decidable (_ ∧ _))

/-- An integer a buffer can hold. -/
def IsByte (i : Int64) : Prop := 0 ≤ i.toInt ∧ i.toInt ≤ 255

instance (i : Int64) : Decidable (IsByte i) := inferInstanceAs (Decidable (_ ∧ _))

/-- `execSetIndex`. -/
def execSetIndex [DecidableEq K] (container index value : Value K A) : Except Fault (Value K A) :=
  match container with
  | .array elements =>
    match index with
    | .integer i =>
      if InBounds i elements.length then .ok (.array (elements.set i.toInt.toNat value))
      else .error (.indexBounds "array" i elements.length)
    | index => .error (.indexType "array" (index.type O))
  | .bytes data classified =>
    match index with
    | .integer i =>
      if InBounds i data.length then
        match value with
        | .integer b =>
          if IsByte b then
            .ok (.bytes (data.set i.toInt.toNat (UInt8.ofNat b.toInt.toNat)) classified)
          else .error (.bytesElementRange b)
        | value => .error (.bytesElementType (value.type O))
      else .error (.indexBounds "bytes" i data.length)
    | index => .error (.indexType "bytes" (index.type O))
  | .hash pairs =>
    match O.hashKey index with
    | none => .error (.unusableKey (index.type O) true)
    | some key => .ok (.hash (Function.update pairs key (some (index, value))))
  | container => .error (.noIndexAssignment (container.type O))

/-- What `OpGetField` pushes. -/
def execGetField (object : Value K A) (field : String) : Except Fault (Value K A) :=
  match object with
  | .struct typeName fields fieldOrder =>
    match fields field with
    | none => .error (.unknownField typeName field fieldOrder false)
    | some value => .ok value
  | .other a => O.field a field
  | object => .error (.noFields (object.type O) false)

/-- What `OpSetField` pushes. -/
def execSetField (object : Value K A) (field : String) (value : Value K A) :
    Except Fault (Value K A) :=
  match object with
  | .struct typeName fields fieldOrder =>
    match fields field with
    | none => .error (.unknownField typeName field fieldOrder true)
    | some _ => .ok (.struct typeName (Function.update fields field (some value)) fieldOrder)
  | object => .error (.noFields (object.type O) true)

/-! ### Paths -/

/-- One hop of a path: `[i]` with the index evaluated, or `.f`. -/
inductive Hop (K A : Type)
  | index (index : Value K A)
  | field (name : String)

/-- Reading and writing at a hop. -/
def access [DecidableEq K] : PathUpdate.Access (Value K A) (Hop K A) Fault where
  get
    | x, .index i => execIndexOperation O x i
    | x, .field f => execGetField O x f
  set
    | x, .index i, v => execSetIndex O x i v
    | x, .field f, v => execSetField O x f v

/-- Two containers of one kind that differ at most at a hop. -/
def SameBut : Hop K A → Value K A → Value K A → Prop
  | .index (.integer i), .array elements, .array elements' =>
    elements'.length = elements.length ∧ ∀ j, j ≠ i.toInt.toNat → elements'[j]? = elements[j]?
  | .index (.integer i), .bytes data classified, .bytes data' classified' =>
    classified' = classified ∧ data'.length = data.length ∧
      ∀ j, j ≠ i.toInt.toNat → data'[j]? = data[j]?
  | .index index, .hash pairs, .hash pairs' =>
    ∀ key, O.hashKey index ≠ some key → pairs' key = pairs key
  | .field name, .struct typeName fields fieldOrder, .struct typeName' fields' fieldOrder' =>
    typeName' = typeName ∧ fieldOrder' = fieldOrder ∧ (fields' name).isSome ∧
      ∀ other, other ≠ name → fields' other = fields other
  | _, _, _ => False

/-- Two values that differ at most in the part a path leads to. -/
def AgreeOff [DecidableEq K] : List (Hop K A) → Value K A → Value K A → Prop :=
  PathUpdate.Access.AgreeOff (access O) (SameBut O)

end Mutant.Vm
