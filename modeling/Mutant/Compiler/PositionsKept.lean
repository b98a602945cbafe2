import Mutant.Compiler.Polymorphic

/-!
# What the padding pass should keep

Each instruction of each stream keeps the source position its tables record for it.  A pass over a
program is a list of runs, one for each stream: the stream, whether its final pop is protected, and
the random state it is padded from.
-/

namespace Mutant.Polymorphic

open Mutant.Code

/-! ### Instructions -/

/-- The bytes are one instruction. -/
def IsInstr (c : Bytes) : Prop := ∃ b rest op, c = b :: rest ∧ Opcode.ofByte? b.toNat = some op ∧
    c.length = (⟨op, []⟩ : Instr).size

/-- The loop of `instructionStarts` from offset `i` on. -/
def startsFrom : (fuel i : Nat) → Bytes → List Nat
  | _, _, [] => []
  | 0, _, _ :: _ => []
  | fuel + 1, i, b :: rest =>
    match Opcode.ofByte? b.toNat with
    | none => []
    | some op =>
      let width := (⟨op, []⟩ : Instr).size
      if (b :: rest).length < width then []
      else i :: startsFrom fuel (i + width) ((b :: rest).drop width)

/-- Where the instructions of a stream start, up to the first byte that does not decode. -/
def instructionStarts (ins : Bytes) : List Nat := startsFrom ins.length 0 ins

/-- The offset an instruction jumps to, for those that do. -/
def jumpTarget? : Bytes → Option Nat
  | [] => none
  | b :: rest =>
    match Opcode.ofByte? b.toNat with
    | none => none
    | some op => if op.jumpOperands = [] then none else some (readUint16 rest)

/-! ### Runs -/

variable {σ : Type} (rng : Rng σ) (gens : List Filler)

/-- One stream about to be padded. -/
structure StreamRun (σ : Type) where
  protectFinalPop : Bool
  stream : Stream
  rng : σ

/-- What padding returns. -/
def StreamRun.result (r : StreamRun σ) : (Bytes × Option (List (Nat × Nat))) × σ :=
  padInstructions rng gens r.protectFinalPop r.stream.instructions r.rng

/-- The stream after the pass. -/
def StreamRun.after (r : StreamRun σ) : Stream :=
  r.stream.moved (r.result rng gens).1.1 (r.result rng gens).1.2

/-- Where the instruction at `start` is after the pass: a stream that was left as it was has it
where it was. -/
def StreamRun.newOffset (r : StreamRun σ) (start : Nat) : Option Nat :=
  match (r.result rng gens).1.2 with
  | none => some start
  | some remap => remap.lookup start

/-- The runs over the constants. -/
def constantRuns : List Constant → σ → List (StreamRun σ)
  | [], _ => []
  | .other :: rest, s => constantRuns rest s
  | .compiledFunction stream :: rest, s =>
    let run : StreamRun σ := ⟨false, stream, s⟩
    run :: constantRuns rest (run.result rng gens).2

/-- The runs of the pass over a program. -/
def streamRuns (bc : ByteCode) (s : σ) : List (StreamRun σ) :=
  let run : StreamRun σ := ⟨true, bc.main, s⟩
  run :: constantRuns rng gens bc.constants (run.result rng gens).2

/-- The streams of a program: the main one, and each compiled function's. -/
def ByteCode.streams (bc : ByteCode) : List Stream := bc.main :: bc.constants.filterMap fun
    | .compiledFunction stream => some stream
    | .other => none

/-- The three tables of a stream. -/
def Stream.tables (s : Stream) : List LineTable := [s.lineTable, s.macroTable, s.endTable]

/-- Every instruction is in the new stream, and each table answers there what it answered. -/
def PositionsKept (old new : Stream) (newOffset : Nat → Option Nat) : Prop :=
  ∀ start ∈ instructionStarts old.instructions, ∃ n, newOffset start = some n ∧
    new.instructions[n]? = old.instructions[start]? ∧
    List.Forall₂ (fun t t' : LineTable => t'.at (Int64.ofNat n) = t.at (Int64.ofNat start))
      old.tables new.tables

/-! ### Which streams can be padded -/

/-- The blocks drawn for instructions, the first of which starts at `start` and goes to `place`. -/
def drawBlocks (first : Filler) (others : List Filler) (cutoff : Nat) :
    (start place : Nat) → List Bytes → σ → List (Bytes × List Nat) × σ
  | _, _, [], s => ([], s)
  | start, place, c :: cs, s =>
    let (block, s) := drawBlock rng first others cutoff start (place + c.length) s
    let (rest, s) := drawBlocks first others cutoff (start + c.length)
      (place + c.length + block.1.length) cs s
    (block :: rest, s)

/-- Where each instruction goes when the blocks are spliced in, and where the end goes. -/
def placements : (start place : Nat) → List Bytes → List (Bytes × List Nat) → List (Nat × Nat)
  | start, place, c :: cs, block :: blocks =>
    (start, place) :: placements (start + c.length) (place + c.length + block.1.length) cs blocks
  | start, place, _, _ => [(start, place)]

/-- The stream decodes end to end, and each of its jumps goes to an instruction or to the end, at
an offset that still fits its operand once the drawn blocks are in. -/
def Paddable (first : Filler) (others : List Filler) (r : StreamRun σ) : Prop :=
  ∃ cs : List Bytes, r.stream.instructions = cs.flatten ∧ (∀ c ∈ cs, IsInstr c) ∧
    let cutoff := paddingCutoff r.stream.instructions (instructionStarts r.stream.instructions)
      r.protectFinalPop
    ∀ c ∈ cs, ∀ target, jumpTarget? c = some target →
      ∃ n, (target, n) ∈ placements 0 0 cs (drawBlocks rng first others cutoff 0 0 cs r.rng).1 ∧
        n ≤ maxUint16

/-- The run has something to splice in, and its stream can be padded. -/
def StreamRun.CanPad (r : StreamRun σ) : Prop :=
  ∃ first others, gens = first :: others ∧ Paddable rng first others r

/-- No table records a position at any instruction of the stream. -/
def Unrecorded (s : Stream) : Prop :=
  ∀ start ∈ instructionStarts s.instructions, ∀ t ∈ s.tables, t.at (Int64.ofNat start) = none

/-- The tables were made by the builder, with calls at the instructions or at the end. -/
def WellRecorded (s : Stream) : Prop := ∀ t ∈ s.tables, RecordedAt
    (fun ip => ∃ n, ip = Int64.ofNat n ∧
      (n ∈ instructionStarts s.instructions ∨ n = s.instructions.length)) t

/-- The stream, however it is padded, can be addressed: a block takes ten bytes at most. -/
def Addressable (s : Stream) : Prop := 11 * s.instructions.length < 2 ^ 63

/-- The pass keeps the positions of every stream. -/
def PassKeepsPositions (config : MutationConfig) (bc : ByteCode) (s : σ) : Prop :=
  List.Forall₂ (fun (r : StreamRun σ) (new : Stream) =>
      PositionsKept r.stream new (r.newOffset rng (fillerGenerators config)))
    (streamRuns rng (fillerGenerators config) bc s) (spliceFillers rng config bc s).1.streams

end Mutant.Polymorphic
