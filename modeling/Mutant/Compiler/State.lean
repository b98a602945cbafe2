import Mutant.Ast.Node
import Mutant.Code.Layout
import Mutant.Compiler.SymbolTable
/-!
# The compiler's state and its primitive actions

A model of the `Compiler` record of `compiler/compiler.go` and of the functions that touch an
instruction stream: `emit`, `emitPlaceholder`, `changeOperand`, `removeLastPop` and their kin.
A compilation is a computation in `CompileM`, which keeps the state an error leaves behind.

Two things are recorded that the source does not record, and nothing ever reads them back: where
the code of each node and of each loop lies (`NodeSpan`, `LoopSpan`, the source's position tables
with offsets in place of lines), and inside which blocks and functions an error arose (the source
locates the error in the text).  Statements about the emitted code are made through them.

Positions, the debug tables built from them, and the scan that fills `structBindings` are left out.
-/

namespace Mutant.Compiler

open Mutant.Code Mutant.Ast

/-! ### Errors -/

/-- What a compilation is refused for. -/
inductive CompileError
  | undefinedVariable (name : String)
  | unknownOperator (operator : String)
  | duplicateDeclaration (already : List String)
  | duplicateParameter (name : String)
  | loopControl (keyword : String)
  | continueInLoopStep
  | macroNotTopLevel
  | nothingToCompile
  | whileWithoutCondition
  | forInWithoutName
  | forInBindsTwice (name : String)
  | matchWithoutArms
  | matchArmWithoutBody
  | invalidAssignmentTarget
  | undeclaredAssignment (name : String)
  | assignModuleMember (ns field moduleName : String)
  | unknownFieldRead (structType field : String) (declared : List String)
  | unknownFieldWrite (structType field : String) (declared : List String)
  | assignThrough (target : Expr)
  | assignFunctionName (name : String)
  | assignBuiltin (name : String)
  | pendingBelowEntry (pending entry : Nat)
  | unresolvedJumps (place : String) (left : List (Nat × Opcode))
  | typeNameTaken (kind name owner here : String)
  | duplicateFieldDeclaration (structName field : String)
  | duplicateFieldLiteral (structName field : String)
  | undefinedStruct (name : String)
  | structLiteralFields (structName : String) (unknown missing declared : List String)
  | privateMember (ns name moduleName : String)
  | noSuchMember (ns name moduleName : String)
  | memberNotHeld (ns member : String)
  | noInitializer (structName field : String)
  /-- Not an error value: `Make` panics on an operand that does not fit. -/
  | operandDoesNotFit (op : Opcode) (operands : List Nat)

namespace CompileError

/-- The clause that lists what a struct declares. -/
def declaresClause (declared : List String) : String :=
  if declared = [] then "it declares no fields" else "it declares " ++ ", ".intercalate declared

def pluralField (n : Nat) : String := if n = 1 then "field" else "fields"

def pluralValue (n : Nat) : String := if n = 1 then "a value" else "values"

/-- `StructLiteralRefusal`. -/
def structLiteralRefusal (name : String) (unknown missing declared : List String) : String :=
  let faults :=
    (if unknown = [] then [] else
      ["has no " ++ pluralField unknown.length ++ " " ++ ", ".intercalate unknown]) ++
    (if missing = [] then [] else
      ["needs " ++ pluralValue missing.length ++ " for " ++ pluralField missing.length ++ " " ++
        ", ".intercalate missing])
  if faults = [] then "struct " ++ name ++ ": " ++ declaresClause declared
  else "struct " ++ name ++ " " ++ " and ".intercalate faults ++ ": " ++ declaresClause declared

/-- The text of an error.  `render` prints an expression; an error that names a jump names no line,
as in a program without positions. -/
def message (render : Expr → String) : CompileError → String
  | undefinedVariable name => "undefined variable: " ++ name
  | unknownOperator operator => "unknown operator " ++ operator
  | duplicateDeclaration [name] =>
    name ++ " is already declared in this scope: a let declares a new variable, so to change " ++
      "this one write " ++ name ++ " = ... instead, or move the declaration into a block of its own"
  | duplicateDeclaration already =>
    "this let declares nothing new: " ++ ", ".intercalate already ++
      " are all already declared in this scope, and a let needs at least one new name"
  | duplicateParameter name =>
    "parameter " ++ name ++ " is declared twice: the second one could never be read, because " ++
      "every mention of " ++ name ++ " in the body means the first"
  | loopControl keyword => keyword ++ " used outside of for loop"
  | continueInLoopStep =>
    "continue in a for loop's post section would skip the step that advances the loop, " ++
      "so the loop could never end; write it in the body instead"
  | macroNotTopLevel =>
    "macro definitions must appear at the top level, and are expanded before compilation"
  | nothingToCompile => "internal: nothing to compile where an expression was expected"
  | whileWithoutCondition => "while statement has no condition"
  | forInWithoutName => "for ... in has no name to bind"
  | forInBindsTwice name => "for ... in binds " ++ name ++ " twice"
  | matchWithoutArms => "match has no arms"
  | matchArmWithoutBody => "match arm has no body"
  | invalidAssignmentTarget => "invalid assignment target"
  | undeclaredAssignment name =>
    "cannot assign to " ++ name ++ ": " ++ name ++ " is not declared -- declare it with `let " ++
      name ++ " = ...`"
  | assignModuleMember ns field moduleName =>
    "cannot assign to " ++ ns ++ "." ++ field ++ ": " ++ field ++ " belongs to " ++ moduleName ++
      ", and a module owns its own top-level names"
  | unknownFieldRead structType field declared =>
    "struct " ++ structType ++ " has no field " ++ field ++ ": " ++ declaresClause declared
  | unknownFieldWrite structType field declared =>
    "cannot set field " ++ field ++ " on struct " ++ structType ++ ": " ++
      declaresClause declared ++ ", and a struct's fields are fixed by its declaration"
  | assignThrough target =>
    "cannot assign through " ++ render target ++ ": an index before the last one is evaluated " ++
      "more than once, so it has to be a name or a literal -- bind it to a variable first"
  | assignFunctionName name =>
    "cannot assign to the name of the function being defined: " ++ name
  | assignBuiltin name => "cannot assign to builtin: " ++ name
  | pendingBelowEntry pending entry =>
    "internal: " ++ toString pending ++ " operands pending inside a loop entered with " ++
      toString entry
  | unresolvedJumps place left =>
    "internal: " ++ place ++ " left " ++ toString left.length ++
      " forward jump(s) with no target: " ++ "; ".intercalate (left.map fun (pos, op) =>
        op.name ++ " at " ++ toString pos ++ " (no line)") ++ ". Each was emitted " ++
      "with the placeholder and never back-patched, which would run as a jump to offset 9999"
  | typeNameTaken kind name owner here =>
    kind ++ " " ++ name ++ " is declared in both " ++ owner ++ " and " ++ here ++
      ": struct and enum names are shared across the whole program, so one of them has to be " ++
      "renamed"
  | duplicateFieldDeclaration structName field =>
    "struct " ++ structName ++ " declares field " ++ field ++ " twice"
  | duplicateFieldLiteral structName field =>
    "struct " ++ structName ++ " sets field " ++ field ++ " twice"
  | undefinedStruct name => "undefined struct type: " ++ name
  | structLiteralFields structName unknown missing declared =>
    structLiteralRefusal structName unknown missing declared
  | privateMember ns name moduleName =>
    ns ++ "." ++ name ++ " is private to " ++ moduleName ++ ": a top-level name beginning with _ " ++
      "is visible only inside the module that declares it"
  | noSuchMember ns name moduleName =>
    moduleName ++ " declares no " ++ name ++ ", so " ++ ns ++ "." ++ name ++
      " has nothing to refer to"
  | memberNotHeld ns member =>
    "internal: sema resolved " ++ ns ++ "." ++ member ++
      " to a member the symbol table does not hold"
  | noInitializer structName field =>
    "internal: struct " ++ structName ++ " literal has no initializer for field " ++ field
  | operandDoesNotFit op _ =>
    "code: operand of " ++ op.name ++ " does not fit; the program exceeds what the bytecode " ++
      "format can address"

/-- The one that is a panic and not an error `Compile` returns. -/
def IsPanic : CompileError → Prop
  | operandDoesNotFit .. => True
  | _ => False

instance : DecidablePred IsPanic := fun e => by
  unfold IsPanic
  cases e <;> infer_instance

end CompileError

/-- What an error arose inside of. -/
inductive Enclosure
  | block
  | function
deriving DecidableEq, Repr

/-- An error and where the failing node is nested, innermost enclosure first. -/
structure Failure where
  error : CompileError
  path : List Enclosure := []

/-! ### State -/

structure EmittedInstruction where
  opcode : Opcode := .opConstant
  position : Nat := 0
deriving DecidableEq, Repr

/-- A loop being compiled. -/
structure LoopContext where
  breakPositions : List Nat := []
  continuePositions : List Nat := []
  pendingAtEntry : Nat
  inLoopStep : Bool := false
deriving DecidableEq, Repr

/-- The nodes whose code is recorded. -/
inductive NodeKind
  | expression
  | statement
  | breakStatement
  | continueStatement
deriving DecidableEq, Repr

/-- The code of one node: the offsets between which it was emitted. -/
structure NodeSpan where
  kind : NodeKind
  start : Nat
  stop : Nat
deriving DecidableEq, Repr

/-- The code of one loop.  A break or a continue belongs to the loop between `body` and `jump`: the
body, and the post section of a `for`.  `resume` is where a continue goes (the head, or the post
section) and `stop` where a break goes.  A for-in keeps a cursor on the stack while it runs. -/
structure LoopSpan where
  start : Nat
  resume : Nat
  body : Nat
  jump : Nat
  stop : Nat
  cursor : Bool
deriving DecidableEq, Repr

/-- One instruction stream under construction. -/
structure CompilationScope where
  instructions : Instructions := []
  lastInstruction : EmittedInstruction := {}
  prevInstruction : EmittedInstruction := {}
  /-- The forward jumps still owed a target, by position. -/
  unresolvedJumps : List (Nat × Opcode) := []
  nodes : List NodeSpan := []
  loops : List LoopSpan := []
deriving DecidableEq, Repr

/-- A compiled function, without its debug tables. -/
structure CompiledFunction where
  instructions : Instructions
  numLocals : Nat
  numParams : Nat
  capturedLocals : List Nat
  name : String
  params : List String
  nodes : List NodeSpan
  loops : List LoopSpan
deriving DecidableEq, Repr

/-- The constant pool's entries. -/
inductive Constant
  | integer (value : Int64)
  | float (bits : UInt64)
  | string (value : String)
  | function (fn : CompiledFunction)
deriving DecidableEq, Repr

/-- The compiler.  `scope` is the stream being written and `outerScopes` the suspended ones,
innermost first; the stacks the source keeps as slices have their top first. -/
structure CompilerState where
  constants : List Constant := []
  symbolTable : SymbolTable := .new
  scope : CompilationScope := {}
  outerScopes : List CompilationScope := []
  structDefinitions : List (String × List String) := []
  enumDefinitions : List (String × List String) := []
  loopContexts : List LoopContext := []
  pendingOperands : Nat := 0
  structLiteralDepth : Nat := 0
  declScopes : List (List String) := [[]]
  moduleDisplays : List (String × String) := []
  structBindings : List (String × String) := []
  typeOwners : List (String × String) := []
  injectSecurityChecks : Bool := false
  hasChkDbg : Bool := false
  hasChkSnd : Bool := false
  /-- The outcomes of the random choices still to be made; none is left when it runs out. -/
  chances : List Bool := []

/-- Computations of the compiler.  An error keeps the state it left. -/
abbrev CompileM := EStateM Failure CompilerState

/-- Returns an error. -/
def fail {α : Type} (error : CompileError) : CompileM α := throw { error }

/-- Runs `m`, then `after` on the state it leaves, on the error path too. -/
def ensuring {α : Type} (m : CompileM α) (after : CompilerState → CompilerState) : CompileM α :=
  fun s =>
    match m s with
    | .ok a s' => .ok a (after s')
    | .error e s' => .error e (after s')

/-- Runs `m`, and `after` on the state an error leaves. -/
def onError {α : Type} (m : CompileM α) (after : CompilerState → CompilerState) : CompileM α :=
  fun s =>
    match m s with
    | .ok a s' => .ok a s'
    | .error e s' => .error e (after s')

/-- Notes that the errors of `m` arise inside an enclosure. -/
def within {α : Type} (enclosure : Enclosure) (m : CompileM α) : CompileM α := fun s =>
  match m s with
  | .ok a s' => .ok a s'
  | .error e s' => .error { e with path := e.path ++ [enclosure] } s'

/-! ### Emission -/

/-- The length of the current stream: where the next instruction goes. -/
def currentPosition : CompileM Nat := fun s => .ok (codeSize s.scope.instructions) s

/-- Updates the current stream. -/
def modifyScope (f : CompilationScope → CompilationScope) : CompileM Unit :=
  modify fun s => { s with scope := f s.scope }

/-- `addConstant`. -/
def addConstant (constant : Constant) : CompileM Nat := do
  let s ← get
  set { s with constants := s.constants ++ [constant] }
  return s.constants.length

/-- Appends an instruction and makes it the last one. -/
def CompilationScope.append (sc : CompilationScope) (i : Instr) : CompilationScope := { sc with
    instructions := sc.instructions ++ [i]
    prevInstruction := sc.lastInstruction
    lastInstruction := ⟨i.op, codeSize sc.instructions⟩ }

/-- `emit`: appends an instruction and returns its position. -/
def emit (op : Opcode) (operands : List Nat := []) : CompileM Nat := do
  match make? op operands with
  | none => fail (.operandDoesNotFit op operands)
  | some i =>
    let pos ← currentPosition
    modifyScope (·.append i)
    return pos

/-- The operand a forward jump carries until its target is known. -/
def placeholderTarget : Nat := 9999

/-- `emitPlaceholder`: a forward jump that is owed a target.  `rest` are the operands after it. -/
def emitPlaceholder (op : Opcode) (rest : List Nat := []) : CompileM Nat := do
  let pos ← emit op (placeholderTarget :: rest)
  modifyScope fun sc => { sc with unresolvedJumps := (pos, op) :: sc.unresolvedJumps }
  return pos

/-- Replaces operand 0 and keeps the others. -/
def withTarget (target : Nat) (i : Instr) : Instr :=
  { i with operands := target :: i.operands.tail }

/-- `changeOperand`: gives the forward jump at `pos` its target and pays the debt it was emitted
with.  `Make` checks the new operand as it checked the old. -/
def changeOperand (pos target : Nat) : CompileM Unit := do
  if maxOperand 2 < target then fail (.operandDoesNotFit .opJump [target])
  modifyScope fun sc => { sc with
    instructions := modifyAt (withTarget target) pos sc.instructions
    unresolvedJumps := sc.unresolvedJumps.filter (·.1 ≠ pos) }

/-- `changeOperand` for a list of jumps with one target. -/
def changeOperands (positions : List Nat) (target : Nat) : CompileM Unit :=
  positions.forM (changeOperand · target)

/-- `assertJumpsResolved`: refuses a stream that still owes a jump emitted at or after `mark` its
target. -/
def assertJumpsResolved (mark : Nat) (place : String) : CompileM Unit := do
  let left := (← get).scope.unresolvedJumps.filter (mark ≤ ·.1)
  if left ≠ [] then fail (.unresolvedJumps place left)

/-- `lastInstructionIs`. -/
def lastInstructionIs (op : Opcode) : CompileM Bool := do
  let sc := (← get).scope
  return sc.instructions ≠ [] && sc.lastInstruction.opcode = op

/-- `removeLastPop`: cuts the stream at the last instruction.  The expression statement whose pop
this was is no longer one: its value is what the block leaves. -/
def CompilationScope.removeLastPop (sc : CompilationScope) : CompilationScope := { sc with
    instructions := truncateAt sc.lastInstruction.position sc.instructions
    lastInstruction := sc.prevInstruction
    nodes := sc.nodes.filter (·.stop ≤ sc.lastInstruction.position) }

def removeLastPop : CompileM Unit := modifyScope (·.removeLastPop)

/-- `replaceLastPopWithReturn`. -/
def replaceLastPopWithReturn : CompileM Unit := modifyScope fun sc => { sc with
    instructions := modifyAt (fun _ => ⟨.opReturnValue, []⟩) sc.lastInstruction.position
      sc.instructions
    lastInstruction := { sc.lastInstruction with opcode := .opReturnValue } }

/-- `leaveOneValue`: makes the block just compiled leave its value, or null. -/
def leaveOneValue (endsInValue : Bool) : CompileM Unit := do
  if endsInValue then removeLastPop else discard (emit .opNull)

/-- `withPending`: runs `m` while `n` values of an enclosing expression wait on the stack. -/
def withPending (n : Nat) (m : CompileM Unit) : CompileM Unit := do
  modify fun s => { s with pendingOperands := s.pendingOperands + n }
  ensuring m fun s => { s with pendingOperands := s.pendingOperands - n }

/-- `emitPendingPops`: drops every operand pushed since the loop was entered. -/
def emitPendingPops (entry : Nat) : CompileM Unit := do
  let pending := (← get).pendingOperands
  if pending < entry then fail (.pendingBelowEntry pending entry)
  (List.replicate (pending - entry) ()).forM fun _ => discard (emit .opPop)

/-- Records the span of a node around its compilation. -/
def node (kind : NodeKind) (m : CompileM Unit) : CompileM Unit := do
  let start ← currentPosition
  m
  let stop ← currentPosition
  modifyScope fun sc => { sc with nodes := ⟨kind, start, stop⟩ :: sc.nodes }

/-- Records the span of a loop. -/
def noteLoop (loop : LoopSpan) : CompileM Unit :=
  modifyScope fun sc => { sc with loops := loop :: sc.loops }

end Mutant.Compiler
