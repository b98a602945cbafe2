import Mutant.Code.LineTable
import Mutant.Code.Opcode

/-!
# The padding pass

A model of the stage of `compiler/polymorphic.go` that splices fillers into the instruction streams
of a program, repoints the jumps and moves the line tables along.  Here a stream is its bytes.  The
random source is a parameter: a state, and the two draws the pass makes from it.
-/

namespace Mutant.Polymorphic

open Mutant.Code

/-- A stream as it is stored. -/
abbrev Bytes := List UInt8

/-- The random source of the engine. -/
structure Rng (σ : Type) where
  /-- Whether `Float64` falls below the rate of the pass. -/
  below : σ → Bool × σ
  /-- `Intn (n + 1)`. -/
  intn : (n : Nat) → σ → Fin (n + 1) × σ

/-- The byte of an opcode. -/
def opByte (op : Opcode) : UInt8 := UInt8.ofNat op.byte

/-- The big-endian bytes of a two-byte operand. -/
def uint16Bytes (n : Nat) : Bytes := [UInt8.ofNat (n / 256), UInt8.ofNat (n % 256)]

/-- The two-byte operand at the front. -/
def readUint16 : Bytes → Nat
  | hi :: lo :: _ => hi.toNat * 256 + lo.toNat
  | _ => 0

/-- `math.MaxUint16`. -/
def maxUint16 : Nat := 65535

/-! ### Where the instructions are -/

/-- The loop of `decodeBoundaries` from offset `i` on; `fuel` bounds the instructions read. -/
def boundariesFrom : (fuel i : Nat) → Bytes → Option (List (Nat × Nat))
  | _, _, [] => some []
  | 0, _, _ :: _ => none
  | fuel + 1, i, b :: rest =>
    match Opcode.ofByte? b.toNat with
    | none => none
    | some op =>
      let width := (⟨op, []⟩ : Instr).size
      if (b :: rest).length < width then none
      else (boundariesFrom fuel (i + width) ((b :: rest).drop width)).map ((i, width) :: ·)

/-- `decodeBoundaries`: the start and the width of every instruction, if the stream decodes end to
end. -/
def decodeBoundaries (ins : Bytes) : Option (List (Nat × Nat)) := boundariesFrom ins.length 0 ins

/-- `lastPopOffset`. -/
def lastPopOffset (ins : Bytes) (starts : List Nat) : Nat :=
  match starts.reverse.find? fun start => ins[start]? == some (opByte .opPop) with
  | some start => start
  | none => 0

/-! ### Fillers -/

/-- What may be spliced in. -/
inductive Filler
  | nop
  | deadBlock
deriving DecidableEq

/-- The parts of `MutationConfig` the stage reads. -/
structure MutationConfig where
  insertNOPs : Bool
  insertDeadCode : Bool

/-- `fillerGenerators`. -/
def fillerGenerators (config : MutationConfig) : List Filler :=
  (if config.insertNOPs then [.nop] else []) ++ (if config.insertDeadCode then [.deadBlock] else [])

variable {σ : Type} (rng : Rng σ)

/-- `generateNOP`: a push and a pop. -/
def generateNOP (s : σ) : Bytes × σ :=
  let (choice, s) := rng.intn 2 s
  let push : Opcode :=
    if choice.val = 0 then .opTrue else if choice.val = 1 then .opFalse else .opNull
  ([opByte push, opByte .opPop], s)

/-- `deadCodeFillers`. -/
def deadCodeFillers : List Opcode :=
  [.opTrue, .opFalse, .opNull, .opAdd, .opSub, .opMul, .opDiv, .opMod, .opBang, .opMinus, .opPop,
   .opDup, .opEqual, .opUnEqual, .opGreater, .opGreaterEqual, .opBitAnd, .opBitOr, .opBitXor,
   .opBitNot, .opShiftLeft, .opShiftRight]

/-- `n` instructions that are never run. -/
def deadCode : (n : Nat) → σ → Bytes × σ
  | 0, s => ([], s)
  | n + 1, s =>
    let (choice, s) := rng.intn (deadCodeFillers.length - 1) s
    let (rest, s) := deadCode n s
    (opByte (deadCodeFillers.get (choice.cast (by decide))) :: rest, s)

/-- `generateDeadBlock`: a jump over instructions that are never run, and where in the block its
operand is.  Nothing, where the target does not fit the operand. -/
def generateDeadBlock (place : Nat) (s : σ) : (Bytes × List Nat) × σ :=
  let (choice, s) := rng.intn 1 s
  let guarded : Bool := choice.val = 0
  let front : Bytes :=
    if guarded then [opByte .opFalse, opByte .opJumpFalse] else [opByte .opJump]
  let (more, s) := rng.intn 4 s
  let (junk, s) := deadCode rng (2 + more.val) s
  let target := place + (front.length + 2 + junk.length)
  if maxUint16 < target then (([], []), s)
  else ((front ++ uint16Bytes target ++ junk, [front.length]), s)

/-- A block of one of the kinds, and where in it its own jump operands are. -/
def Filler.generate (filler : Filler) (place : Nat) (s : σ) : (Bytes × List Nat) × σ :=
  match filler with
  | .nop =>
    let (block, s) := generateNOP rng s
    ((block, []), s)
  | .deadBlock => generateDeadBlock rng place s

/-! ### Padding one stream -/

/-- What the loop of `padInstructions` carries. -/
structure Padding (σ : Type) where
  remap : List (Nat × Nat)
  padded : Bytes
  ownJumps : List Nat
  rng : σ

/-- The block that is spliced in after the instruction at `start`, if any. -/
def drawBlock (first : Filler) (others : List Filler) (cutoff start place : Nat) (s : σ) :
    (Bytes × List Nat) × σ :=
  if start < cutoff then
    let (drawn, s) := rng.below s
    if drawn then
      let (choice, s) := rng.intn others.length s
      ((first :: others).get choice).generate rng place s
    else (([], []), s)
  else (([], []), s)

/-- One round of the loop of `padInstructions`. -/
def padStep (first : Filler) (others : List Filler) (ins : Bytes) (cutoff : Nat) (p : Padding σ)
    (instr : Nat × Nat) : Padding σ :=
  let padded := p.padded ++ (ins.drop instr.1).take instr.2
  let ((block, own), s) := drawBlock rng first others cutoff instr.1 padded.length p.rng
  { remap := p.remap ++ [(instr.1, p.padded.length)]
    padded := padded ++ block
    ownJumps := p.ownJumps ++ own.map (padded.length + ·)
    rng := s }

/-- The operands of one instruction with the jump offsets among them repointed.  `slots` are the
operands that are jump offsets, `operand` counts them, and `offset` is where the next one is. -/
def rewriteOperands (remap : List (Nat × Nat)) (ownJumps slots : List Nat) :
    (widths : List Nat) → (operand offset : Nat) → Bytes → Option Bytes
  | [], _, _, bytes => some bytes
  | w :: widths, operand, offset, bytes =>
    let rest := rewriteOperands remap ownJumps slots widths (operand + 1) (offset + w)
      (bytes.drop w)
    if w = 2 ∧ operand ∈ slots ∧ offset ∉ ownJumps then
      match remap.lookup (readUint16 bytes) with
      | none => none
      | some target => if maxUint16 < target then none else rest.map (uint16Bytes target ++ ·)
    else rest.map (bytes.take w ++ ·)

/-- The loop of `rewriteJumpTargets` from offset `i` on; `fuel` bounds the instructions read. -/
def rewriteFrom (remap : List (Nat × Nat)) (ownJumps : List Nat) :
    (fuel i : Nat) → Bytes → Option Bytes
  | _, _, [] => some []
  | 0, _, _ :: _ => none
  | fuel + 1, i, b :: rest =>
    match Opcode.ofByte? b.toNat with
    | none => none
    | some op =>
      let width := (⟨op, []⟩ : Instr).size
      if (b :: rest).length < width then none
      else
        match rewriteOperands remap ownJumps op.jumpOperands op.operandWidths 0 (i + 1)
            (rest.take (width - 1)) with
        | none => none
        | some operands =>
          (rewriteFrom remap ownJumps fuel (i + width) ((b :: rest).drop width)).map
            (b :: operands ++ ·)

/-- `rewriteJumpTargets`: the stream with its jumps repointed, or nothing where one cannot be. -/
def rewriteJumpTargets (padded : Bytes) (remap : List (Nat × Nat)) (ownJumps : List Nat) :
    Option Bytes :=
  rewriteFrom remap ownJumps padded.length 0 padded

/-- Nothing is spliced in at or after this offset. -/
def paddingCutoff (ins : Bytes) (starts : List Nat) (protectFinalPop : Bool) : Nat :=
  if protectFinalPop then lastPopOffset ins starts else starts.getLastD 0

/-- `padInstructions`: the padded stream and where each instruction went; the stream as it was and
no map, where it cannot be padded. -/
def padInstructions (gens : List Filler) (protectFinalPop : Bool) (ins : Bytes) (s : σ) :
    (Bytes × Option (List (Nat × Nat))) × σ :=
  match decodeBoundaries ins, gens with
  | some (i :: is), first :: others =>
    let cutoff := paddingCutoff ins ((i :: is).map Prod.fst) protectFinalPop
    let p := (i :: is).foldl (padStep rng first others ins cutoff) ⟨[], [], [], s⟩
    let remap := p.remap ++ [(ins.length, p.padded.length)]
    match rewriteJumpTargets p.padded remap p.ownJumps with
    | none => ((ins, none), p.rng)
    | some padded => ((padded, some remap), p.rng)
  | _, _ => ((ins, none), s)

/-! ### The pass -/

/-- An instruction stream with its tables. -/
structure Stream where
  instructions : Bytes
  lineTable : LineTable
  macroTable : LineTable
  endTable : LineTable

/-- The offset map as the tables read it. -/
def asOffsets (remap : List (Nat × Nat)) : List (Int64 × Int64) :=
  remap.map fun moved => (Int64.ofNat moved.1, Int64.ofNat moved.2)

/-- The stream after its instructions were padded. -/
def Stream.moved (s : Stream) (padded : Bytes) (remap : Option (List (Nat × Nat))) : Stream where
  instructions := padded
  lineTable := s.lineTable.remap (remap.map asOffsets)
  macroTable := s.macroTable.remap (remap.map asOffsets)
  endTable := s.endTable.remap (remap.map asOffsets)

/-- A constant: a compiled function, or anything else. -/
inductive Constant
  | compiledFunction (stream : Stream)
  | other

/-- The parts of `ByteCode` the pass reads and writes. -/
structure ByteCode where
  main : Stream
  constants : List Constant

/-- One stream padded, with its tables moved along. -/
def spliceStream (gens : List Filler) (protectFinalPop : Bool) (stream : Stream) (s : σ) :
    Stream × σ :=
  let ((padded, remap), s) := padInstructions rng gens protectFinalPop stream.instructions s
  (stream.moved padded remap, s)

/-- The loop of `spliceFillers` over the constants. -/
def spliceConstants (gens : List Filler) : List Constant → σ → List Constant × σ
  | [], s => ([], s)
  | .other :: rest, s =>
    let (rest, s) := spliceConstants gens rest s
    (.other :: rest, s)
  | .compiledFunction stream :: rest, s =>
    let (stream, s) := spliceStream rng gens false stream s
    let (rest, s) := spliceConstants gens rest s
    (.compiledFunction stream :: rest, s)

/-- `spliceFillers`. -/
def spliceFillers (config : MutationConfig) (bc : ByteCode) (s : σ) : ByteCode × σ :=
  let gens := fillerGenerators config
  if gens.isEmpty then (bc, s)
  else
    let (main, s) := spliceStream rng gens true bc.main s
    let (constants, s) := spliceConstants rng gens bc.constants s
    (⟨main, constants⟩, s)

end Mutant.Polymorphic
