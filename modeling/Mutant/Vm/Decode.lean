import Mutant.Code.Opcode
import Mutant.Mutil.EncryptByteCode

/-!
# How the virtual machine reads instructions

Instructions stay covered while they run.  Every opcode and every operand is uncovered where it
stands, under the one stream the machine derives from the length of the main stream and its
password.
-/

namespace Mutant.Vm

open Mutant.Security (Bytes Primitives ChaCha20Block StreamFault XORStream)
open Mutant.Mutil (CompiledByteCode)

variable {κ : Type}

/-- The part of `VM` that reading instructions uses. -/
structure VM where
  inslen : Nat
  password : Bytes
  opcodeReverse : Option (Vector UInt8 256)

/-- `normalizeOpcodeMap`: a table that does not answer for every byte is none. -/
def normalizeOpcodeMap (reverse : Bytes) : Option (Vector UInt8 256) :=
  if h : reverse.length = 256 then some ⟨reverse.toArray, by rw [List.size_toArray, h]⟩ else none

/-- `NewWithPassword`. -/
def newWithPassword (byteCode : CompiledByteCode κ) (password : Bytes) : VM :=
  { inslen := byteCode.instructions.length
    password := password
    opcodeReverse := normalizeOpcodeMap byteCode.opcodeMap }

namespace VM

/-- `decodeOpcode`. -/
def decodeOpcode (vm : VM) (b : UInt8) : UInt8 :=
  match vm.opcodeReverse with
  | none => b
  | some reverse => reverse.get ⟨b.toNat, b.toNat_lt⟩

variable (P : Primitives) (block : ChaCha20Block)

/-- `instructionStream`. -/
def instructionStream (vm : VM) : XORStream :=
  Security.newXORStream P (Int64.ofNat vm.inslen) vm.password

/-- The fetch of `runInstructions`; the index is out of range past the end. -/
def fetch (vm : VM) (ins : Bytes) (ip : Nat) : Except StreamFault UInt8 :=
  match ins[ip]? with
  | none => .error .panic
  | some b => do
    let opcodeByte ← (vm.instructionStream P).xorOneAt block b ip
    return vm.decodeOpcode opcodeByte

/-- `readUint16`. -/
def readUint16 (vm : VM) (ins : Bytes) (at_ : Int) : Except StreamFault UInt16 :=
  if at_ < 0 ∨ (ins.length : Int) < at_ + 2 then
    .error (.error "instruction slice too short for uint16")
  else do
    let dec ← (vm.instructionStream P).xorAt block ((ins.drop at_.toNat).take 2) at_
    return UInt16.ofNat (BigEndian.get (dec.take 2))

/-- `readUint8`. -/
def readUint8 (vm : VM) (ins : Bytes) (at_ : Int) : Except StreamFault UInt8 :=
  if at_ < 0 ∨ (ins.length : Int) ≤ at_ then
    .error (.error "instruction slice too short for uint8")
  else
    match ins[at_.toNat]? with
    | none => .error .panic
    | some b => (vm.instructionStream P).xorOneAt block b at_

/-- The loop of `buildInstructionBoundaries` over a stream of `length` bytes whose opcodes `opcodeAt`
reads.  An instruction takes a byte at least, so as much fuel as there are bytes is enough. -/
def boundariesFrom (opcodeAt : Nat → Except StreamFault UInt8) (length : Nat) :
    (fuel i : Nat) → List Nat
  | 0, _ => []
  | fuel + 1, i =>
    if length ≤ i then []
    else
      i ::
        match opcodeAt i with
        | .error _ => []
        | .ok opcode =>
          match Code.Opcode.ofByte? opcode.toNat with
          | none => []
          | some op =>
            boundariesFrom opcodeAt length fuel (i + (1 + op.operandWidths.foldr (· + ·) 0))

/-- `buildInstructionBoundaries`. -/
def buildInstructionBoundaries (vm : VM) (ins : Bytes) : List Nat :=
  if vm.password = [] then []
  else boundariesFrom (vm.fetch P block ins) ins.length ins.length 0

end VM

end Mutant.Vm
