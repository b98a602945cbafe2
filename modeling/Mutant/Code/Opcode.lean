import Mathlib.Data.List.Basic
/-!
# Opcodes and instructions

A model of `code/code.go`.  A stream is a list of instructions; `Instr.bytes` is `Make`, and every
position (a jump target, an instruction pointer) is a byte offset, so that the stream reads as the
bytes do.

* `Opcode.operandWidths`: the widths column of the source's `definitions` table;
* `make?`: `Make` with its operand check, which panics in the source;
* `encode`, `readOperands`: a stream as bytes, and an instruction's operands read back.
-/

namespace Mutant.Code

/-- The opcodes, in the order that numbers them. -/
inductive Opcode
  | opConstant | opPop | opAdd | opSub | opMul | opDiv | opMod | opTrue | opFalse | opEqual
  | opUnEqual | opGreater | opMinus | opBang | opJumpFalse | opJump | opNull | opGetGlobal
  | opSetGlobal | opGetLocal | opSetLocal | opArray | opHash | opIndex | opCall | opReturnValue
  | opReturn | opMultiValue | opDup | opDestructure | opGetBuiltin | opClosure | opGetFree
  | opCurrentClosure | opChkDbg | opChkSnd | opBreak | opContinue | opMakeStruct | opGetField
  | opSetField | opEnumValue | opGreaterEqual | opSetIndex | opBitAnd | opBitOr | opBitXor
  | opBitNot | opShiftLeft | opShiftRight | opGetLocalCell | opSetLocalCell | opCaptureLocal
  | opCaptureFree | opSetFree | opConcat | opIterInit | opIterNext | opMatchFail | opLess
  | opLessEqual
deriving DecidableEq, Repr

namespace Opcode

/-- The byte an opcode is encoded as. -/
def byte (op : Opcode) : Nat := op.ctorIdx

/-- Every opcode, indexed by its byte. -/
def all : List Opcode :=
  [.opConstant, .opPop, .opAdd, .opSub, .opMul, .opDiv, .opMod, .opTrue, .opFalse, .opEqual,
   .opUnEqual, .opGreater, .opMinus, .opBang, .opJumpFalse, .opJump, .opNull, .opGetGlobal,
   .opSetGlobal, .opGetLocal, .opSetLocal, .opArray, .opHash, .opIndex, .opCall, .opReturnValue,
   .opReturn, .opMultiValue, .opDup, .opDestructure, .opGetBuiltin, .opClosure, .opGetFree,
   .opCurrentClosure, .opChkDbg, .opChkSnd, .opBreak, .opContinue, .opMakeStruct, .opGetField,
   .opSetField, .opEnumValue, .opGreaterEqual, .opSetIndex, .opBitAnd, .opBitOr, .opBitXor,
   .opBitNot, .opShiftLeft, .opShiftRight, .opGetLocalCell, .opSetLocalCell, .opCaptureLocal,
   .opCaptureFree, .opSetFree, .opConcat, .opIterInit, .opIterNext, .opMatchFail, .opLess,
   .opLessEqual]

/-- `Lookup` without its error text: the opcode a byte stands for. -/
def ofByte? (b : Nat) : Option Opcode := all[b]?

/-- The name column of `definitions`.  `OpCall` is spelled with a lower-case `c` there. -/
def name : Opcode → String
  | .opConstant => "OpConstant"
  | .opPop => "OpPop"
  | .opAdd => "OpAdd"
  | .opSub => "OpSub"
  | .opMul => "OpMul"
  | .opDiv => "OpDiv"
  | .opMod => "OpMod"
  | .opTrue => "OpTrue"
  | .opFalse => "OpFalse"
  | .opEqual => "OpEqual"
  | .opUnEqual => "OpUnEqual"
  | .opGreater => "OpGreater"
  | .opMinus => "OpMinus"
  | .opBang => "OpBang"
  | .opJumpFalse => "OpJumpFalse"
  | .opJump => "OpJump"
  | .opNull => "OpNull"
  | .opGetGlobal => "OpGetGlobal"
  | .opSetGlobal => "OpSetGlobal"
  | .opGetLocal => "OpGetLocal"
  | .opSetLocal => "OpSetLocal"
  | .opArray => "OpArray"
  | .opHash => "OpHash"
  | .opIndex => "OpIndex"
  | .opCall => "Opcall"
  | .opReturnValue => "OpReturnValue"
  | .opReturn => "OpReturn"
  | .opMultiValue => "OpMultiValue"
  | .opDup => "OpDup"
  | .opDestructure => "OpDestructure"
  | .opGetBuiltin => "OpGetBuiltin"
  | .opClosure => "OpClosure"
  | .opGetFree => "OpGetFree"
  | .opCurrentClosure => "OpCurrentClosure"
  | .opChkDbg => "OpChkDbg"
  | .opChkSnd => "OpChkSnd"
  | .opBreak => "OpBreak"
  | .opContinue => "OpContinue"
  | .opMakeStruct => "OpMakeStruct"
  | .opGetField => "OpGetField"
  | .opSetField => "OpSetField"
  | .opEnumValue => "OpEnumValue"
  | .opGreaterEqual => "OpGreaterEqual"
  | .opSetIndex => "OpSetIndex"
  | .opBitAnd => "OpBitAnd"
  | .opBitOr => "OpBitOr"
  | .opBitXor => "OpBitXor"
  | .opBitNot => "OpBitNot"
  | .opShiftLeft => "OpShiftLeft"
  | .opShiftRight => "OpShiftRight"
  | .opGetLocalCell => "OpGetLocalCell"
  | .opSetLocalCell => "OpSetLocalCell"
  | .opCaptureLocal => "OpCaptureLocal"
  | .opCaptureFree => "OpCaptureFree"
  | .opSetFree => "OpSetFree"
  | .opConcat => "OpConcat"
  | .opIterInit => "OpIterInit"
  | .opIterNext => "OpIterNext"
  | .opMatchFail => "OpMatchFail"
  | .opLess => "OpLess"
  | .opLessEqual => "OpLessEqual"

/-- The operand widths column of `definitions`. -/
def operandWidths : Opcode → List Nat
  | .opConstant | .opJumpFalse | .opJump | .opGetGlobal | .opSetGlobal | .opArray | .opHash
  | .opMultiValue | .opDestructure | .opGetBuiltin | .opGetField | .opSetField | .opConcat => [2]
  | .opGetLocal | .opSetLocal | .opCall | .opGetFree | .opGetLocalCell | .opSetLocalCell
  | .opCaptureLocal | .opCaptureFree | .opSetFree => [1]
  | .opClosure | .opMakeStruct | .opIterNext => [2, 1]
  | .opEnumValue => [2, 2]
  | _ => []

/-- `JumpOperands`: which operands are offsets into the stream. -/
def jumpOperands : Opcode → List Nat
  | .opJump | .opJumpFalse | .opIterNext => [0]
  | _ => []

end Opcode

/-- One instruction of a stream. -/
structure Instr where
  op : Opcode
  operands : List Nat := []
deriving DecidableEq, Repr

/-- An instruction stream. -/
abbrev Instructions := List Instr

/-- The largest operand `checkOperandFits` lets through a width, which is one or two bytes. -/
def maxOperand (width : Nat) : Nat := if width = 1 then 0xFF else 0xFFFF

namespace Instr

/-- The bytes an instruction takes: the opcode and its operands. -/
def size (i : Instr) : Nat := 1 + i.op.operandWidths.foldr (· + ·) 0

/-- An instruction `Make` builds without complaint: one operand for each width, and each fits. -/
def Fits (i : Instr) : Prop :=
  List.Forall₂ (fun operand width => operand ≤ maxOperand width) i.operands i.op.operandWidths

instance (i : Instr) : Decidable i.Fits := by unfold Fits; infer_instance

/-- The offset a jump goes to, for the opcodes that have one. -/
def target? (i : Instr) : Option Nat :=
  if i.op.jumpOperands = [] then none else i.operands.head?

end Instr

/-- `Make`: the instruction, or nothing where the source panics because an operand does not fit. -/
def make? (op : Opcode) (operands : List Nat) : Option Instr :=
  if (⟨op, operands⟩ : Instr).Fits then some ⟨op, operands⟩ else none

/-- The length of a stream in bytes. -/
def codeSize : Instructions → Nat
  | [] => 0
  | i :: is => i.size + codeSize is

/-! ### Bytes -/

/-- The big-endian bytes of an operand. -/
def operandBytes : (width operand : Nat) → List Nat
  | 0, _ => []
  | width + 1, operand => operandBytes width (operand / 256) ++ [operand % 256]

/-- The bytes `Make` returns. -/
def Instr.bytes (i : Instr) : List Nat :=
  i.op.byte :: (List.zipWith operandBytes i.op.operandWidths i.operands).flatten

/-- A stream as the bytes it is stored as. -/
def encode (is : Instructions) : List Nat := is.flatMap Instr.bytes

/-- Reads one big-endian operand. -/
def readOperand (bytes : List Nat) : Nat := bytes.foldl (fun acc b => acc * 256 + b) 0

/-- `ReadOperands`: the operands at the front of a stream and the bytes they take.  The first that the
stream ends inside, and all after it, are zero. -/
def readOperands : (widths : List Nat) → List Nat → List Nat × Nat
  | [], _ => ([], 0)
  | width :: widths, bytes =>
    if bytes.length < width then (0 :: widths.map fun _ => 0, 0)
    else
      let (operands, read) := readOperands widths (bytes.drop width)
      (readOperand (bytes.take width) :: operands, width + read)

end Mutant.Code
