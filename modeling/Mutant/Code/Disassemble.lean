import Mutant.Code.Layout
/-!
# Disassembly

`Instructions.String` of `code/code.go`, the text a stream is shown as.
-/

namespace Mutant.Code

/-- `fmtInstruction`. -/
def fmtInstruction (op : Opcode) (operands : List Nat) : String :=
  if operands.length ≠ op.operandWidths.length then
    "ERROR: operand len " ++ toString operands.length ++ " does not match defined " ++
      toString op.operandWidths.length ++ "\n"
  else
    match operands with
    | [] => op.name
    | [a] => op.name ++ " " ++ toString a
    | [a, b] => op.name ++ " " ++ toString a ++ " " ++ toString b
    | _ => "ERROR: unhandled operandCount for " ++ op.name ++ "\n"

/-- The line of the instruction at an offset, which is padded to four digits. -/
def instructionLine (offset : Nat) (op : Opcode) (operands : List Nat) : String :=
  "".pushn '0' (4 - (toString offset).length) ++ toString offset ++ " " ++
    fmtInstruction op operands ++ "\n"

/-- `Instructions.String` at offset `i`, or `none` where `fuel` turns of its loop are too few.  The
turn that finds an undefined opcode writes its error, and the next one finds the same opcode. -/
def stringFrom : (fuel i : Nat) → List Nat → Option String
  | _, _, [] => some ""
  | 0, _, _ :: _ => none
  | fuel + 1, i, b :: bytes =>
    match Opcode.ofByte? b with
    | none =>
      (stringFrom fuel i (b :: bytes)).map ("ERROR: opcode " ++ toString b ++ " undefined\n" ++ ·)
    | some op =>
      let (operands, read) := readOperands op.operandWidths bytes
      (stringFrom fuel (i + 1 + read) (bytes.drop read)).map (instructionLine i op operands ++ ·)

end Mutant.Code
