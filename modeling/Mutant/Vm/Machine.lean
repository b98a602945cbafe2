import Mathlib.Logic.Relation
import Mutant.Vm.Value
/-!
# Running compiled code

A model of `runInstructions` for one activation: the instructions that load, store, read and write
values, as the dispatch loop carries them out.  What the other instructions do (jumps, calls, the
arithmetic) is a parameter, and so is the rest of the program's state, the `world` they may change.

The variables of an activation are slots.  A local that is captured lives in a cell, which the
instructions for cells read and write through, so that its slot is what the cell holds.
-/

namespace Mutant.Vm

open Mutant.Code
open Mutant.Compiler (Constant)

/-- Where a variable lives. -/
inductive Slot
  | globalSlot (index : Nat)
  | localSlot (index : Nat)
  | freeSlot (index : Nat)
deriving DecidableEq, Repr

/-- The variables, and everything else. -/
structure Memory (K A W : Type) where
  slots : Slot → Value K A
  world : W

structure Config (K A W : Type) where
  ip : Nat
  stack : List (Value K A)
  memory : Memory K A W

variable {K A W : Type}

def Memory.set (memory : Memory K A W) (slot : Slot) (v : Value K A) : Memory K A W :=
  { memory with slots := Function.update memory.slots slot v }

/-- The machine: the values that instructions name, and what the instructions that are not modelled
do. -/
structure Machine (K A W : Type) extends Objects K A where
  constant : Constant → Value K A
  structDefs : String → Option (List String)
  enumValue : String → String → Except Fault (Value K A)
  builtin : Nat → Except Fault (Value K A)
  currentClosure : W → Value K A
  other : Instr → Config K A W → Except Fault (Config K A W)

def stackUnderflow : Fault := .raised "stack underflow: pop with nothing on the stack"

/-- `constantAt`. -/
def constantAt (pool : List Constant) (k : Nat) : Except Fault Constant :=
  match pool[k]? with
  | some constant => .ok constant
  | none =>
    .error (.raised ("constant index " ++ toString k ++ " out of range, len=" ++
      toString pool.length))

/-- `constantString`. -/
def constantString (pool : List Constant) (what : String) (k : Nat) : Except Fault String :=
  match constantAt pool k with
  | .error e => .error (.raised (what ++ ": " ++ e.message))
  | .ok (.string s) => .ok s
  | .ok _ => .error (.raised (what ++ " is not string at index=" ++ toString k))

/-- `OpIndex`. -/
def indexTop (O : Objects K A) : List (Value K A) → Except Fault (List (Value K A))
  | index :: left :: rest => (execIndexOperation O left index).map (· :: rest)
  | _ => .error stackUnderflow

/-- `OpSetIndex`. -/
def setIndexTop [DecidableEq K] (O : Objects K A) :
    List (Value K A) → Except Fault (List (Value K A))
  | value :: index :: container :: rest => (execSetIndex O container index value).map (· :: rest)
  | _ => .error stackUnderflow

/-- `OpGetField`. -/
def getFieldTop (O : Objects K A) (field : String) :
    List (Value K A) → Except Fault (List (Value K A))
  | object :: rest => (execGetField O object field).map (· :: rest)
  | [] => .error stackUnderflow

/-- `OpSetField`. -/
def setFieldTop (O : Objects K A) (field : String) :
    List (Value K A) → Except Fault (List (Value K A))
  | value :: object :: rest => (execSetField O object field value).map (· :: rest)
  | _ => .error stackUnderflow

/-- `OpMakeStruct`: the values on the stack, which were pushed in the order of the declaration, under
the names the declaration lists. -/
def makeStruct (M : Machine K A W) (typeName : String) (fieldCount : Nat)
    (stack : List (Value K A)) : Except Fault (List (Value K A)) :=
  let fieldNames := (M.structDefs typeName).getD []
  if fieldNames.length ≠ fieldCount then
    .error (.raised ("struct " ++ typeName ++ " expects " ++ toString fieldNames.length ++
      " fields, got " ++ toString fieldCount))
  else if stack.length < fieldCount then .error stackUnderflow
  else
    let values := (stack.take fieldCount).reverse
    .ok (.struct typeName (fun name => (fieldNames.zip values).lookup name) fieldNames ::
      stack.drop fieldCount)

section

variable [DecidableEq K] (M : Machine K A W) (pool : List Constant)

/-- What an instruction does to the stack and the variables; nothing is said of one that is not
modelled. -/
def operate (i : Instr) (stack : List (Value K A)) (memory : Memory K A W) :
    Option (Except Fault (List (Value K A) × Memory K A W)) :=
  let push (v : Value K A) := some (.ok (v :: stack, memory))
  let pop (slot : Slot) :=
    match stack with
    | v :: rest => some (.ok (rest, memory.set slot v))
    | [] => some (.error stackUnderflow)
  let become (r : Except Fault (List (Value K A))) := some (r.map fun stack => (stack, memory))
  match i with
  | ⟨.opConstant, [k]⟩ => become ((constantAt pool k).map fun c => M.constant c :: stack)
  | ⟨.opTrue, []⟩ => push (.boolean true)
  | ⟨.opFalse, []⟩ => push (.boolean false)
  | ⟨.opNull, []⟩ => push .null
  | ⟨.opGetGlobal, [k]⟩ => push (memory.slots (.globalSlot k))
  | ⟨.opGetLocal, [k]⟩ | ⟨.opGetLocalCell, [k]⟩ => push (memory.slots (.localSlot k))
  | ⟨.opGetFree, [k]⟩ => push (memory.slots (.freeSlot k))
  | ⟨.opSetGlobal, [k]⟩ => pop (.globalSlot k)
  | ⟨.opSetLocal, [k]⟩ | ⟨.opSetLocalCell, [k]⟩ => pop (.localSlot k)
  | ⟨.opSetFree, [k]⟩ => pop (.freeSlot k)
  | ⟨.opGetBuiltin, [k]⟩ => become ((M.builtin k).map (· :: stack))
  | ⟨.opCurrentClosure, []⟩ => push (M.currentClosure memory.world)
  | ⟨.opEnumValue, [t, k]⟩ =>
    become <| (constantString pool "OpEnumValue: type constant" t).bind fun typeName =>
      (constantString pool "OpEnumValue: tag constant" k).bind fun tag =>
        (M.enumValue typeName tag).map (· :: stack)
  | ⟨.opIndex, []⟩ => become (indexTop M.toObjects stack)
  | ⟨.opSetIndex, []⟩ => become (setIndexTop M.toObjects stack)
  | ⟨.opGetField, [k]⟩ =>
    become <| (constantString pool "OpGetField: field constant" k).bind fun field =>
      getFieldTop M.toObjects field stack
  | ⟨.opSetField, [k]⟩ =>
    become <| (constantString pool "OpSetField: field constant" k).bind fun field =>
      setFieldTop M.toObjects field stack
  | ⟨.opMakeStruct, [k, n]⟩ =>
    become <| (constantString pool "OpMakeStruct: type constant" k).bind fun typeName =>
      makeStruct M typeName n stack
  | _ => none

/-- The instruction that starts at an offset. -/
def instrAt : Instructions → Nat → Option Instr
  | [], _ => none
  | i :: is, p => if p = 0 then some i else if i.size ≤ p then instrAt is (p - i.size) else none

/-- One turn of the dispatch loop. -/
def step (is : Instructions) (c : Config K A W) : Except Fault (Config K A W) :=
  match instrAt is c.ip with
  | none => .error (.raised "no instruction")
  | some i =>
    match operate M pool i c.stack c.memory with
    | some r => r.map fun (stack, memory) => ⟨c.ip + i.size, stack, memory⟩
    | none => M.other i c

/-- A run of any number of turns. -/
def Steps (is : Instructions) : Config K A W → Config K A W → Prop :=
  Relation.ReflTransGen fun c c' => step M pool is c = .ok c'

/-- A run ends in a configuration, or is stopped by a fault. -/
def Ends (is : Instructions) (c : Config K A W) : Except Fault (Config K A W) → Prop
  | .ok c' => Steps M pool is c c'
  | .error e => ∃ c', Steps M pool is c c' ∧ step M pool is c' = .error e

/-- The code from `p` to `q` is an expression's: it puts a value on whatever is on the stack, or is
stopped. -/
def Yields (is : Instructions) (p q : Nat) (memory : Memory K A W)
    (r : Except Fault (Value K A × Memory K A W)) : Prop :=
  ∀ stack, Ends M pool is ⟨p, stack, memory⟩ (r.map fun (v, memory') => ⟨q, v :: stack, memory'⟩)

end

end Mutant.Vm
