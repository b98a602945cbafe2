import Mutant.Code.Layout
/-!
# What an instruction does to the stack

The operand-stack effect of every opcode, read off the VM's dispatch loop: how many operands an
instruction takes, how many it leaves when control falls through to the next one, and how many when
it jumps.  The locals of a frame lie below its operands and are not counted.
-/

namespace Mutant.Code

namespace Instr

/-- The operands an instruction takes from the stack.  The loop cursor `OpIterNext` only looks at is
counted as taken and put back. -/
def pops (i : Instr) : Nat :=
  match i.op, i.operands with
  | .opPop, _ | .opMinus, _ | .opBang, _ | .opBitNot, _ | .opJumpFalse, _ | .opSetGlobal, _
  | .opSetLocal, _ | .opSetLocalCell, _ | .opSetFree, _ | .opReturnValue, _ | .opIterInit, _
  | .opIterNext, _ | .opGetField, _ | .opDestructure, _ | .opMatchFail, _ | .opDup, _ => 1
  | .opAdd, _ | .opSub, _ | .opMul, _ | .opDiv, _ | .opMod, _ | .opEqual, _ | .opUnEqual, _
  | .opGreater, _ | .opGreaterEqual, _ | .opLess, _ | .opLessEqual, _ | .opBitAnd, _
  | .opBitOr, _ | .opBitXor, _ | .opShiftLeft, _ | .opShiftRight, _ | .opIndex, _
  | .opSetField, _ => 2
  | .opSetIndex, _ => 3
  | .opArray, [n] | .opHash, [n] | .opConcat, [n] | .opMultiValue, [n] => n
  | .opClosure, [_, n] | .opMakeStruct, [_, n] => n
  | .opCall, [n] => n + 1
  | _, _ => 0

/-- The operands it leaves when control falls through, for the instructions after which it can. -/
def falls (i : Instr) : Option Nat :=
  match i.op, i.operands with
  | .opJump, _ | .opReturn, _ | .opReturnValue, _ | .opMatchFail, _ => none
  | .opPop, _ | .opSetGlobal, _ | .opSetLocal, _ | .opSetLocalCell, _ | .opSetFree, _
  | .opJumpFalse, _ | .opChkDbg, _ | .opChkSnd, _ => some 0
  | .opDup, _ => some 2
  | .opDestructure, [n] => some n
  | .opIterNext, [_, n] => some (n + 1)
  | _, _ => some 1

/-- The operands it leaves when it jumps: a spent loop keeps its cursor. -/
def lands (i : Instr) : Nat := if i.op = .opIterNext then 1 else 0

end Instr

end Mutant.Code
