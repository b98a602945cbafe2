import Mutant.Compiler.State
/-!
# Code generation

A model of `compileNode` and of the functions it calls.  Each construct of the language is a
definition over the compilations of its parts (`ifExpression`, `whileStatement`, `assignExpression`
and so on, after the source's functions), and `compileExpr`, `compileStmt` tie them together by
recursion on the tree.  A part that the source asks a syntactic question about carries the answer
beside its compilation.
-/

namespace Mutant.Compiler

open Mutant.Code Mutant.Ast

/-! ### Names -/

/-- Runs an operation of the symbol table that answers something. -/
def withTable {α : Type} (f : SymbolTable → α × SymbolTable) : CompileM α := fun s =>
  .ok (f s.symbolTable).1 { s with symbolTable := (f s.symbolTable).2 }

/-- `Resolve`, on the compiler's table. -/
def resolve (name : String) : CompileM (Option Symbol) := withTable (·.resolve name)

/-- `Define`, on the compiler's table. -/
def define (name : String) : CompileM Symbol := withTable (·.define name)

/-- `internalSlot`: the compiler's own storage for `kind` in the scope being compiled. -/
def internalSlot (kind : String) : CompileM Symbol :=
  withTable fun st =>
    match st.resolveInternal (" " ++ kind) with
    | some symbol => (symbol, st)
    | none => st.defineInternal (" " ++ kind)

/-- The discard. -/
def blankName : String := "_"

/-- `noteDeclared`. -/
def noteDeclared (name : String) : CompileM Unit := modify fun s =>
  if name = "" ∨ name = blankName then s
  else
    match s.declScopes with
    | [] => s
    | scope :: rest => { s with declScopes := (name :: scope) :: rest }

/-- `declaredHere`: whether the innermost scope has itself declared a name. -/
def declaredHere (s : CompilerState) (name : String) : Bool :=
  match s.declScopes with
  | [] => false
  | scope :: _ => name ∈ scope

/-- `declare`. -/
def declare (name : String) : CompileM Symbol := do
  let symbol ← define name
  noteDeclared name
  return symbol

/-- `refuseIfNothingIsNew`: a `let` has to declare a name its scope has not, or the blank. -/
def refuseIfNothingIsNew (names : List String) : CompileM Unit := do
  let s ← get
  let already := names.filter fun name => name ≠ blankName && declaredHere s name
  if already.length = names.length ∧ already ≠ [] then fail (.duplicateDeclaration already)

/-- `openBlock`, as a change of state. -/
def CompilerState.openBlock (s : CompilerState) : CompilerState :=
  { s with symbolTable := s.symbolTable.openBlock, declScopes := [] :: s.declScopes }

/-- Drops the innermost declaration scope, but never the last. -/
def dropDeclScope : List (List String) → List (List String)
  | _ :: scope :: rest => scope :: rest
  | scopes => scopes

/-- `closeBlock`, as a change of state. -/
def CompilerState.closeBlock (s : CompilerState) : CompilerState :=
  { s with symbolTable := s.symbolTable.closeBlock, declScopes := dropDeclScope s.declScopes }

/-- `m` between an `openBlock` and the `closeBlock` that runs whether it fails or not. -/
def inBlock (m : CompileM Unit) : CompileM Unit := do
  modify CompilerState.openBlock
  ensuring (within .block m) CompilerState.closeBlock

/-! ### Storage -/

/-- The mark of an operand that indexes the program's own table of builtin names. -/
def builtinNameTableFlag : Nat := 0x8000

/-- `loadSymbol`. -/
def loadSymbol (symbol : Symbol) : CompileM Unit := do
  match symbol.scope with
  | .globalScope => discard (emit .opGetGlobal [symbol.index])
  | .localScope => discard (emit .opGetLocal [symbol.index])
  | .builtinScope =>
    let ref ← withTable (·.referenceBuiltin symbol.name)
    discard (emit .opGetBuiltin [builtinNameTableFlag ||| ref])
  | .freeScope => discard (emit .opGetFree [symbol.index])
  | .functionScope => discard (emit .opCurrentClosure)

/-- `emitCapture`: pushes the storage of a symbol for a closure to hold. -/
def emitCapture (symbol : Symbol) : CompileM Unit := do
  match symbol.scope with
  | .localScope => discard (emit .opCaptureLocal [symbol.index])
  | .freeScope => discard (emit .opCaptureFree [symbol.index])
  | .functionScope => discard (emit .opCurrentClosure)
  | .globalScope | .builtinScope => loadSymbol symbol

/-- `emitStoreOnly`: writes the top of the stack into a symbol's storage. -/
def emitStoreOnly (symbol : Symbol) : CompileM Unit := do
  match symbol.scope with
  | .globalScope => discard (emit .opSetGlobal [symbol.index])
  | .localScope => discard (emit .opSetLocal [symbol.index])
  | .freeScope =>
    if (← get).symbolTable.freeCapturesFunctionName symbol.index then
      fail (.assignFunctionName symbol.name)
    discard (emit .opSetFree [symbol.index])
  | .builtinScope => fail (.assignBuiltin symbol.name)
  | .functionScope => fail (.assignFunctionName symbol.name)

/-- `emitAssignStore`: stores, and leaves the value as the assignment's own. -/
def emitAssignStore (symbol : Symbol) : CompileM Unit := do
  emitStoreOnly symbol
  loadSymbol symbol

/-- `emitBindingStore`, which a `let` also does: stores into a name just declared. -/
def emitBindingStore (symbol : Symbol) : CompileM Unit := do
  if symbol.scope = .globalScope then discard (emit .opSetGlobal [symbol.index])
  else discard (emit .opSetLocal [symbol.index])

/-- An instruction as `boxCapturedLocals` leaves it. -/
def boxCapturedLocal (captured : List Nat) (i : Instr) : Instr :=
  match i with
  | ⟨.opGetLocal, [slot]⟩ => if slot ∈ captured then ⟨.opGetLocalCell, [slot]⟩ else i
  | ⟨.opSetLocal, [slot]⟩ => if slot ∈ captured then ⟨.opSetLocalCell, [slot]⟩ else i
  | _ => i

/-- `boxCapturedLocals`: rewrites the accesses of captured slots to their cell forms. -/
def boxCapturedLocals (captured : List Nat) (is : Instructions) : Instructions :=
  is.map (boxCapturedLocal captured)

/-! ### Expressions -/

/-- Pushes a constant. -/
def emitConstant (constant : Constant) : CompileM Unit := do
  let index ← addConstant constant
  discard (emit .opConstant [index])

def identifier (name : String) : CompileM Unit := do
  match ← resolve name with
  | none => fail (.undefinedVariable name)
  | some symbol => loadSymbol symbol

/-- The opcode of a unary operator. -/
def unaryOpcode (operator : String) : Option Opcode :=
  if operator = "-" then some .opMinus
  else if operator = "!" then some .opBang
  else if operator = "~" then some .opBitNot
  else none

def unaryExpression (operator : String) (right : CompileM Unit) : CompileM Unit := do
  right
  match unaryOpcode operator with
  | none => fail (.unknownOperator operator)
  | some op => discard (emit op)

/-- `infixOpcode`: the opcode of a binary operator. -/
def infixOpcode (operator : String) : Option Opcode :=
  List.lookup operator
    [("+", .opAdd), ("-", .opSub), ("*", .opMul), ("/", .opDiv), ("%", .opMod), ("&", .opBitAnd),
      ("|", .opBitOr), ("^", .opBitXor), ("<<", .opShiftLeft), (">>", .opShiftRight),
      (">", .opGreater), (">=", .opGreaterEqual), ("<", .opLess), ("<=", .opLessEqual),
      ("==", .opEqual), ("!=", .opUnEqual)]

/-- `compileLogicalExpression` for `&&`. -/
def logicalAnd (left right : CompileM Unit) : CompileM Unit := do
  left
  let leftFalse ← emitPlaceholder .opJumpFalse
  right
  let rightFalse ← emitPlaceholder .opJumpFalse
  discard (emit .opTrue)
  let toEnd ← emitPlaceholder .opJump
  let falsePos ← currentPosition
  changeOperand leftFalse falsePos
  changeOperand rightFalse falsePos
  discard (emit .opFalse)
  changeOperand toEnd (← currentPosition)

/-- `compileLogicalExpression` for `||`. -/
def logicalOr (left right : CompileM Unit) : CompileM Unit := do
  left
  let leftFalse ← emitPlaceholder .opJumpFalse
  discard (emit .opTrue)
  let trueEnd1 ← emitPlaceholder .opJump
  changeOperand leftFalse (← currentPosition)
  right
  let rightFalse ← emitPlaceholder .opJumpFalse
  discard (emit .opTrue)
  let trueEnd2 ← emitPlaceholder .opJump
  changeOperand rightFalse (← currentPosition)
  discard (emit .opFalse)
  let endPos ← currentPosition
  changeOperand trueEnd1 endPos
  changeOperand trueEnd2 endPos

def binaryExpression (operator : String) (left right : CompileM Unit) : CompileM Unit := do
  if operator = "&&" then logicalAnd left right
  else if operator = "||" then logicalOr left right
  else
    left
    withPending 1 right
    match infixOpcode operator with
    | none => fail (.unknownOperator operator)
    | some op => discard (emit op)

/-- The parts of a block whose value is wanted: its body, and whether it ends in a value. -/
structure ValueBlock where
  body : CompileM Unit
  endsInValue : Bool

/-- A block compiled as a scope of its own, then made to leave one value. -/
def valueBlock (block : ValueBlock) : CompileM Unit := do
  inBlock block.body
  leaveOneValue block.endsInValue

def ifExpression (condition : CompileM Unit) (consequence : ValueBlock)
    (alternative : Option ValueBlock) : CompileM Unit := do
  condition
  let jumpFalsePosition ← emitPlaceholder .opJumpFalse
  valueBlock consequence
  let jumpPos ← emitPlaceholder .opJump
  changeOperand jumpFalsePosition (← currentPosition)
  match alternative with
  | none => discard (emit .opNull)
  | some block => valueBlock block
  changeOperand jumpPos (← currentPosition)

def indexExpression (left index : CompileM Unit) : CompileM Unit := do
  left
  withPending 1 index
  discard (emit .opIndex)

/-- Compiles operands in turn, the first with `pending` values already waiting. -/
def operands (pending : Nat) : List (CompileM Unit) → CompileM Unit
  | [] => pure ()
  | m :: ms => do
    withPending pending m
    operands (pending + 1) ms

def arrayLiteral (elements : List (CompileM Unit)) : CompileM Unit := do
  operands 0 elements
  discard (emit .opArray [elements.length])

/-- The keys and values of a hash, pair by pair. -/
def hashPairs (pending : Nat) : List (CompileM Unit × CompileM Unit) → CompileM Unit
  | [] => pure ()
  | (key, value) :: pairs => do
    withPending pending key
    withPending (pending + 1) value
    hashPairs (pending + 2) pairs

def hashLiteral (pairs : List (CompileM Unit × CompileM Unit)) : CompileM Unit := do
  hashPairs 0 pairs
  discard (emit .opHash [pairs.length * 2])

def callExpression (function : CompileM Unit) (arguments : List (CompileM Unit)) :
    CompileM Unit := do
  function
  operands 1 arguments
  discard (emit .opCall [arguments.length])

/-- The pieces of an interpolated string; answers how many were pushed. -/
def templatePieces (pieces : Nat) : List String → List (CompileM Unit) → CompileM Nat
  | [], _ => return pieces
  | text :: texts, parts => do
    if text ≠ "" then emitConstant (.string text)
    let pieces := if text ≠ "" then pieces + 1 else pieces
    match parts with
    | [] => templatePieces pieces texts []
    | part :: parts =>
      withPending pieces part
      templatePieces (pieces + 1) texts parts

/-- `compileTemplateLiteral`. -/
def templateLiteral (texts : List String) (parts : List (CompileM Unit)) : CompileM Unit := do
  let pieces ← templatePieces 0 texts parts
  if pieces = 0 then emitConstant (.string "")
  else discard (emit .opConcat [pieces])

/-! ### Matching -/

/-- The tests of one arm: the jumps an alternative takes when it matches, and the jump the last one
takes when it does not. -/
def patternTests : List (CompileM Unit) → CompileM (List Nat × Option Nat)
  | [] => return ([], none)
  | [pattern] => do
    discard (emit .opDup)
    withPending 2 pattern
    discard (emit .opEqual)
    let missed ← emitPlaceholder .opJumpFalse
    return ([], some missed)
  | pattern :: patterns => do
    discard (emit .opDup)
    withPending 2 pattern
    discard (emit .opEqual)
    let nextAlternative ← emitPlaceholder .opJumpFalse
    let matched ← emitPlaceholder .opJump
    changeOperand nextAlternative (← currentPosition)
    let (matchedJumps, missed) ← patternTests patterns
    return (matched :: matchedJumps, missed)

/-- One arm; answers its jump to the end, and whether it is the wildcard, which has no test. -/
def matchArm (patterns : List (CompileM Unit)) (body : ValueBlock) : CompileM (Nat × Bool) := do
  let (matchedJumps, missed) ← patternTests patterns
  changeOperands matchedJumps (← currentPosition)
  discard (emit .opPop)
  valueBlock body
  let endJump ← emitPlaceholder .opJump
  match missed with
  | none => return (endJump, true)
  | some pos =>
    changeOperand pos (← currentPosition)
    return (endJump, false)

/-- The arms in turn; answers their jumps to the end, and whether one of them always matches. -/
def matchArms : List (List (CompileM Unit) × Option ValueBlock) → CompileM (List Nat × Bool)
  | [] => return ([], false)
  | (_, none) :: _ => fail .matchArmWithoutBody
  | (patterns, some body) :: arms => do
    let (endJump, always) ← matchArm patterns body
    let (endJumps, alwaysLater) ← matchArms arms
    return (endJump :: endJumps, always || alwaysLater)

/-- `compileMatchExpression`. -/
def matchExpression (subject : CompileM Unit)
    (arms : List (List (CompileM Unit) × Option ValueBlock)) : CompileM Unit := do
  if arms.isEmpty then fail .matchWithoutArms
  subject
  let (endJumps, always) ← matchArms arms
  if !always then discard (emit .opMatchFail)
  changeOperands endJumps (← currentPosition)

/-! ### Functions -/

/-- `enterScope`. -/
def enterScope : CompileM Unit := modify fun s =>
  { s with
    scope := {}
    outerScopes := s.scope :: s.outerScopes
    symbolTable := s.symbolTable.newEnclosed
    declScopes := [] :: s.declScopes }

/-- The last part of `leaveScope`, which it reaches only when no jump is owed a target. -/
def CompilerState.leaveScope (s : CompilerState) : CompilerState :=
  { s with
    scope := s.outerScopes.headD {}
    outerScopes := s.outerScopes.tail
    symbolTable := s.symbolTable.outer?.getD s.symbolTable
    declScopes := dropDeclScope s.declScopes }

/-- The parameters, which share the body's scope. -/
def parameters : List String → CompileM Unit
  | [] => pure ()
  | name :: names => do
    if name ≠ blankName && declaredHere (← get) name then fail (.duplicateParameter name)
    discard (declare name)
    parameters names

/-- A function body is a loop boundary: the enclosing loops are out of reach inside it. -/
def withoutLoops (m : CompileM Unit) : CompileM Unit := do
  let enclosingLoops := (← get).loopContexts
  modify fun s => { s with loopContexts := [] }
  ensuring m fun s => { s with loopContexts := enclosingLoops }

/-- The function's own name, which its body can call. -/
def nameFunction (name : String) : CompileM Unit := do
  if name ≠ "" then
    modify fun s => { s with symbolTable := s.symbolTable.defineFunctionName name }

/-- The end of a function: a value the body ends in is returned, and a body that does not end in a
return gets one. -/
def endFunction (endsInValue : Bool) : CompileM Unit := do
  if endsInValue then replaceLastPopWithReturn
  if !(← lastInstructionIs .opReturnValue) then discard (emit .opReturn)

/-- A function literal up to and including `leaveScope`: the compiled function, and the symbols its
closures capture. -/
def functionBody (name : String) (params : List String) (body : CompileM Unit)
    (endsInValue : Bool) : CompileM (CompiledFunction × List Symbol) := do
  enterScope
  nameFunction name
  parameters params
  withoutLoops body
  endFunction endsInValue
  assertJumpsResolved 0 "this function body"
  let s ← get
  set s.leaveScope
  let table := s.symbolTable.table
  return (
    { instructions := boxCapturedLocals table.capturedLocals s.scope.instructions
      numLocals := table.numDefinitions
      numParams := params.length
      capturedLocals := table.capturedLocals
      name, params
      nodes := s.scope.nodes
      loops := s.scope.loops },
    table.freeSymbols)

def functionLiteral (name : String) (params : List String) (body : CompileM Unit)
    (endsInValue : Bool) : CompileM Unit := do
  let (fn, freeSymbols) ← within .function (functionBody name params body endsInValue)
  freeSymbols.forM emitCapture
  let fnIndex ← addConstant (.function fn)
  discard (emit .opClosure [fnIndex, freeSymbols.length])

/-! ### Assignment -/

/-- `assignStep`: one hop of an assignment target.  An index carries its compilation, and whether it
may be evaluated more than once. -/
inductive AssignStep
  | index (isPure : Bool) (compile : CompileM Unit)
  | field (name : String)

namespace AssignStep

/-- An index that must not be evaluated twice. -/
def isImpure : AssignStep → Bool
  | .index isPure _ => !isPure
  | .field _ => false

end AssignStep

/-- The hops of `emitPathLoad`.  `indexSlot`, when given, holds the index of the last one. -/
def pathSteps (indexSlot : Option Symbol) : List AssignStep → CompileM Unit
  | [] => pure ()
  | .index _ compile :: rest => do
    match indexSlot, rest with
    | some slot, [] => loadSymbol slot
    | _, _ => withPending 1 compile
    discard (emit .opIndex)
    pathSteps indexSlot rest
  | .field name :: rest => do
    let nameIndex ← addConstant (.string name)
    discard (emit .opGetField [nameIndex])
    pathSteps indexSlot rest

/-- `emitPathLoad`: pushes the value of a variable followed through some hops. -/
def emitPathLoad (symbol : Symbol) (steps : List AssignStep) (indexSlot : Option Symbol) :
    CompileM Unit := do
  loadSymbol symbol
  pathSteps indexSlot steps

/-- The `store` of `emitAssignChain`: mutates the container on the stack and leaves it there. -/
def storeThrough (last : AssignStep) (indexSlot : Option Symbol) (emitValue : CompileM Unit) :
    CompileM Unit := do
  match last with
  | .index _ compile =>
    withPending 1 compile
    match indexSlot with
    | some slot =>
      emitStoreOnly slot
      loadSymbol slot
    | none => pure ()
    withPending 2 emitValue
    discard (emit .opSetIndex)
  | .field name =>
    withPending 1 emitValue
    let nameIndex ← addConstant (.string name)
    discard (emit .opSetField [nameIndex])

/-- `emitAssignChain`, the hops given last one first: a nested write is the shallower write with a
deeper one supplying its value. -/
def emitAssignChain (symbol : Symbol) : List AssignStep → Option Symbol → CompileM Unit →
    CompileM Unit
  | [], _, _ => pure ()
  | [last], indexSlot, emitValue => do
    loadSymbol symbol
    storeThrough last indexSlot emitValue
    emitStoreOnly symbol
  | last :: outer, indexSlot, emitValue =>
    emitAssignChain symbol outer none do
      emitPathLoad symbol outer.reverse none
      storeThrough last indexSlot emitValue

/-- `structTypeOfBinding`. -/
def structTypeOfBinding (s : CompilerState) (name : String) : Option String :=
  s.structBindings.lookup (s.symbolTable.rootTable.currentModule ++ moduleSeparator ++ name)

/-- `checkFieldIsDeclared`. -/
def checkFieldIsDeclared (structType field : String) (isWrite : Bool) : CompileM Unit := do
  match (← get).structDefinitions.lookup structType with
  | none => pure ()
  | some declared =>
    if field ∉ declared then
      fail (if isWrite then .unknownFieldWrite structType field declared
        else .unknownFieldRead structType field declared)

/-- `moduleName`: a module key as a reader should see it. -/
def moduleName (s : CompilerState) (key : String) : String :=
  match s.moduleDisplays.lookup key with
  | some display => display
  | none => if key = "" then "this program" else key

/-- The refusals of an assignment whose first hop is a field. -/
def checkFirstHop (base : String) : List AssignStep → CompileM Unit
  | .field name :: _ => do
    if name ≠ "" then
      let s ← get
      match s.symbolTable.lookupNamespace base with
      | some key => fail (.assignModuleMember base name (moduleName s key))
      | none =>
        match structTypeOfBinding s base with
        | none => pure ()
        | some structType => checkFieldIsDeclared structType name true
  | _ => pure ()

/-- The value of a compound assignment whose last index must not be evaluated twice: the target is
read through the spilled index, and the operator applied to it and the right-hand side. -/
def foldedValue (operator : String) (symbol : Symbol) (steps : List AssignStep)
    (indexSlot : Option Symbol) (value : CompileM Unit) : CompileM Unit := do
  emitPathLoad symbol steps indexSlot
  value
  match infixOpcode operator with
  | none => fail (.unknownOperator operator)
  | some op => discard (emit op)

/-- `compileAssignExpression` for a target with hops. -/
def assignThroughSteps (base : String) (steps : List AssignStep) (target : Expr)
    (foldOperator : String) (value : CompileM Unit) : CompileM Unit := do
  checkFirstHop base steps
  match ← resolve base with
  | none => fail (.undefinedVariable base)
  | some symbol =>
    if steps.dropLast.any AssignStep.isImpure then fail (.assignThrough target)
    let spill ← internalSlot "assign"
    let indexSlot ← if foldOperator ≠ "" then some <$> internalSlot "assignindex" else pure none
    emitAssignChain symbol steps.reverse indexSlot do
      if foldOperator ≠ "" then foldedValue foldOperator symbol steps indexSlot value else value
      emitStoreOnly spill
      loadSymbol spill
    loadSymbol spill

/-- `compileAssignExpression`.  A compound assignment is rewritten into a plain one of the operator
applied to the target and the value, unless the target ends in an index that must not be evaluated
twice. -/
def assignExpression (operator : String) (target : Expr)
    (flattened : Option (String × List AssignStep)) (left value : CompileM Unit) :
    CompileM Unit := do
  match flattened with
  | none => fail .invalidAssignmentTarget
  | some (base, steps) =>
    let folds := operator ≠ "" ∧ steps.getLast?.any AssignStep.isImpure
    let foldOperator := if folds then operator else ""
    let valueExpr := if operator ≠ "" ∧ ¬ folds then
      node .expression (binaryExpression operator left value) else value
    if steps.isEmpty then
      valueExpr
      match ← resolve base with
      | none => fail (.undeclaredAssignment base)
      | some symbol => emitAssignStore symbol
    else assignThroughSteps base steps target foldOperator valueExpr

/-! ### Fields and structs -/

/-- `IsModulePrivate`. -/
def isModulePrivate (name : String) : Bool := name.startsWith "_"

/-- What sema decides a field of a bare name refers to. -/
inductive FieldResolution
  | enumValue
  | moduleMember (key : String)
  | builtinFold (flat : String)
  | valueAccess
  | refused (refusal : CompileError)

/-- `resolveModuleMember`. -/
def resolveModuleMember (s : CompilerState) (ns key name : String) : FieldResolution :=
  -- an empty key names no module, and an empty display is no name for one
  let shown := if key = "" then "the module it is imported from"
    else if moduleName s key = "" then key else moduleName s key
  if isModulePrivate name then .refused (.privateMember ns name shown)
  else if (s.symbolTable.resolveIn key name).isNone then .refused (.noSuchMember ns name shown)
  else .moduleMember key

/-- `ResolveField`: an enum, then an import, then a builtin family nothing shadows, then a value.
`registry` tells the builtins.  Asking whether the name is bound resolves it, captures included. -/
def resolveField (registry : String → Bool) (left field : String) : CompileM FieldResolution := do
  if left = "" ∨ field = "" then return .valueAccess
  let s ← get
  if (s.enumDefinitions.lookup left).isSome then return .enumValue
  match s.symbolTable.lookupNamespace left with
  | some key => return resolveModuleMember s left key field
  | none =>
    let symbol ← resolve left
    let bound := symbol.any (·.scope ≠ .builtinScope)
    if !bound && registry (left ++ "_" ++ field) then return .builtinFold (left ++ "_" ++ field)
    return .valueAccess

/-- An ordinary field read. -/
def fieldRead (left : CompileM Unit) (field : String) : CompileM Unit := do
  left
  let nameIndex ← addConstant (.string field)
  discard (emit .opGetField [nameIndex])

/-- `compileFieldExpression`; `name` is the receiver when it is a bare name. -/
def fieldExpression (registry : String → Bool) (name : Option String) (left : CompileM Unit)
    (field : String) : CompileM Unit := do
  match name with
  | none => fieldRead left field
  | some ident =>
    match ← resolveField registry ident field with
    | .enumValue =>
      let typeNameIndex ← addConstant (.string ident)
      let tagNameIndex ← addConstant (.string field)
      discard (emit .opEnumValue [typeNameIndex, tagNameIndex])
    | .moduleMember key =>
      match (← get).symbolTable.resolveIn key field with
      | none => fail (.memberNotHeld ident field)
      | some symbol => loadSymbol symbol
    | .builtinFold flat => loadSymbol ⟨flat, .builtinScope, 0⟩
    | .refused refusal => fail refusal
    | .valueAccess =>
      match structTypeOfBinding (← get) ident with
      | none => pure ()
      | some structType => checkFieldIsDeclared structType field false
      fieldRead left field

/-- The first name a list repeats. -/
def firstRepeated : List String → List String → Option String
  | _, [] => none
  | seen, name :: names => if name ∈ seen then some name else firstRepeated (name :: seen) names

/-- The spilling half of `emitStructFieldsInSourceOrder`: each initialiser into a slot of its own. -/
def spillFields (depth : Nat) : (position : Nat) → List (String × CompileM Unit) →
    CompileM (List (String × Symbol))
  | _, [] => return []
  | position, (name, value) :: fields => do
    value
    let slot ← internalSlot ("struct " ++ toString depth ++ " " ++ toString position)
    emitStoreOnly slot
    return (name, slot) :: (← spillFields depth (position + 1) fields)

/-- The reading half: the slots in the order the declaration lists the fields. -/
def loadFields (structName : String) (slots : List (String × Symbol)) : List String → CompileM Unit
  | [] => pure ()
  | field :: declared => do
    match slots.lookup field with
    | none => fail (.noInitializer structName field)
    | some slot => loadSymbol slot
    loadFields structName slots declared

/-- `emitStructFieldsInSourceOrder`. -/
def emitStructFieldsInSourceOrder (structName : String) (fields : List (String × CompileM Unit))
    (declared : List String) : CompileM Unit := do
  let depth := (← get).structLiteralDepth
  modify fun s => { s with structLiteralDepth := depth + 1 }
  ensuring (do loadFields structName (← spillFields depth 0 fields) declared)
    fun s => { s with structLiteralDepth := s.structLiteralDepth - 1 }

/-- `compileStructLiteral`.  In declaration order the initialisers are the fields as written. -/
def structLiteral (structName : String) (fields : List (String × CompileM Unit)) :
    CompileM Unit := do
  match (← get).structDefinitions.lookup structName with
  | none => fail (.undefinedStruct structName)
  | some declared =>
    let written := fields.map Prod.fst
    match firstRepeated [] written with
    | some field => fail (.duplicateFieldLiteral structName field)
    | none =>
      let unknown := written.filter (· ∉ declared)
      let missing := declared.filter (· ∉ written)
      if unknown ≠ [] ∨ missing ≠ [] then
        fail (.structLiteralFields structName unknown missing declared)
      let typeNameIndex ← addConstant (.string structName)
      if written = declared then operands 0 (fields.map Prod.snd)
      else emitStructFieldsInSourceOrder structName fields declared
      discard (emit .opMakeStruct [typeNameIndex, declared.length])

/-! ### Statements -/

def expressionStatement (value : CompileM Unit) : CompileM Unit := do
  value
  discard (emit .opPop)

/-- The names of a destructuring `let`, the last one first. -/
def bindNames : List String → CompileM Unit
  | [] => pure ()
  | name :: names => do
    emitBindingStore (← declare name)
    bindNames names

/-- `let`: the value first, the names after it. -/
def letStatement (name : String) (names : List String) (value : CompileM Unit) :
    CompileM Unit := do
  let written := if names = [] then [name] else names
  refuseIfNothingIsNew written
  value
  if written.length ≤ 1 then emitBindingStore (← declare name)
  else
    discard (emit .opDestructure [written.length])
    bindNames written.reverse

def returnStatement (values : List (CompileM Unit)) : CompileM Unit := do
  match values with
  | [] => discard (emit .opReturn)
  | [value] =>
    value
    discard (emit .opReturnValue)
  | values =>
    operands 0 values
    discard (emit .opMultiValue [values.length])
    discard (emit .opReturnValue)

/-- A block as a statement, which a loop's body also is. -/
def blockStatement (body : CompileM Unit) : CompileM Unit := node .statement (inBlock body)

/-- Enters a loop. -/
def CompilerState.pushLoop (s : CompilerState) : CompilerState :=
  { s with loopContexts := { pendingAtEntry := s.pendingOperands } :: s.loopContexts }

/-- Leaves a loop. -/
def CompilerState.popLoop (s : CompilerState) : CompilerState :=
  { s with loopContexts := s.loopContexts.tail }

/-- Changes the innermost loop. -/
def modifyLoop (f : LoopContext → LoopContext) : CompileM Unit := modify fun s =>
  { s with loopContexts := s.loopContexts.modifyHead f }

/-- The innermost loop. -/
def currentLoop : CompileM LoopContext := do
  return (← get).loopContexts.headD { pendingAtEntry := 0 }

/-- What the three loops do once their test is emitted, `exitJump` being the jump the test takes out
of the loop.  `step` is the post section, and `resumesAtHead` says that a continue skips it.  The
loop began at `start`. -/
def loopTail (start head exitJump : Nat) (resumesAtHead cursor : Bool) (body step : CompileM Unit) :
    CompileM Unit := do
  let bodyStart ← currentPosition
  modify CompilerState.pushLoop
  onError (blockStatement body) CompilerState.popLoop
  let bodyEnd ← currentPosition
  let resume := if resumesAtHead then head else bodyEnd
  changeOperands (← currentLoop).continuePositions resume
  step
  let backJump ← emit .opJump [head]
  let loopEnd ← currentPosition
  changeOperand exitJump loopEnd
  changeOperands (← currentLoop).breakPositions loopEnd
  modify CompilerState.popLoop
  noteLoop ⟨start, resume, bodyStart, backJump, loopEnd, cursor⟩

/-- `compileWhileStatement`, after the check that there is a condition. -/
def whileStatement (condition body : CompileM Unit) : CompileM Unit := do
  let conditionStart ← currentPosition
  condition
  let jumpFalsePosition ← emitPlaceholder .opJumpFalse
  loopTail conditionStart conditionStart jumpFalsePosition true false body (pure ())

/-- The condition of a `for`, true when there is none. -/
def forCondition : Option (CompileM Unit) → CompileM Unit
  | none => discard (emit .opTrue)
  | some condition => condition

/-- The post section of a `for`, in which a continue has nowhere to go. -/
def forStep : Option (CompileM Unit) → CompileM Unit
  | none => modifyLoop fun ctx => { ctx with inLoopStep := true }
  | some post => do
    modifyLoop fun ctx => { ctx with inLoopStep := true }
    onError post CompilerState.popLoop
    discard (emit .opPop)
    modifyLoop fun ctx => { ctx with inLoopStep := false }

/-- `compileForStatement`. -/
def forStatement (init condition post : Option (CompileM Unit)) (body : CompileM Unit) :
    CompileM Unit := inBlock do
  let start ← currentPosition
  init.getD (pure ())
  let conditionStart ← currentPosition
  forCondition condition
  let jumpFalsePosition ← emitPlaceholder .opJumpFalse
  loopTail start conditionStart jumpFalsePosition false false body (forStep post)

/-- The bindings of a for-in: the value is stored first, being on top. -/
def forInBindings (key : Option String) (value : String) : CompileM (Symbol × Option Symbol) := do
  let valueSymbol ← define value
  match key with
  | none => return (valueSymbol, none)
  | some key => return (valueSymbol, some (← define key))

/-- `compileForInStatement`, after the check that there is a name to bind. -/
def forInLoop (key : Option String) (value : String) (iterable body : CompileM Unit) :
    CompileM Unit := do
  let start ← currentPosition
  iterable
  discard (emit .opIterInit)
  let (valueSymbol, keySymbol) ← forInBindings key value
  let headPosition ← currentPosition
  let nextPosition ← emitPlaceholder .opIterNext [if keySymbol.isSome then 2 else 1]
  emitBindingStore valueSymbol
  match keySymbol with
  | none => pure ()
  | some keySymbol => emitBindingStore keySymbol
  loopTail start headPosition nextPosition true true body (pure ())
  discard (emit .opPop)

/-- `compileForInStatement`. -/
def forInStatement (key value : Option String) (iterable body : CompileM Unit) : CompileM Unit :=
  inBlock do
    match value with
    | none => fail .forInWithoutName
    | some value =>
      if key = some value then fail (.forInBindsTwice value)
      forInLoop key value iterable body

def breakStatement : CompileM Unit := do
  match (← get).loopContexts with
  | [] => fail (.loopControl "break")
  | ctx :: _ =>
    emitPendingPops ctx.pendingAtEntry
    let jumpPos ← emitPlaceholder .opJump
    modifyLoop fun ctx => { ctx with breakPositions := ctx.breakPositions ++ [jumpPos] }

def continueStatement : CompileM Unit := do
  match (← get).loopContexts with
  | [] => fail (.loopControl "continue")
  | ctx :: _ =>
    if ctx.inLoopStep then fail .continueInLoopStep
    emitPendingPops ctx.pendingAtEntry
    let jumpPos ← emitPlaceholder .opJump
    modifyLoop fun ctx => { ctx with continuePositions := ctx.continuePositions ++ [jumpPos] }

/-- `claimTypeName`. -/
def claimTypeName (kind name : String) : CompileM Unit := do
  let s ← get
  let here := s.symbolTable.rootTable.currentModule
  match s.typeOwners.lookup name with
  | some owner =>
    if owner ≠ here then
      fail (.typeNameTaken kind name (moduleName s owner) (moduleName s here))
  | none => pure ()
  set { s with typeOwners := (name, here) :: s.typeOwners }

def structStatement (name : String) (fields : List String) : CompileM Unit := do
  claimTypeName "struct" name
  match firstRepeated [] fields with
  | some field => fail (.duplicateFieldDeclaration name field)
  | none => modify fun s => { s with structDefinitions := (name, fields) :: s.structDefinitions }

def enumStatement (name : String) (variants : List String) : CompileM Unit := do
  claimTypeName "enum" name
  modify fun s => { s with enumDefinitions := (name, variants) :: s.enumDefinitions }

/-! ### The tree -/

/-- The name of a receiver that is a bare identifier. -/
def identName : Expr → Option String
  | .ident name => some name
  | _ => none

section

variable (registry : String → Bool)

mutual

/-- `Compile` of an expression. -/
def compileExpr : Expr → CompileM Unit
  | .missing => fail .nothingToCompile
  | .ident name => node .expression (identifier name)
  | .integer value => node .expression (emitConstant (.integer value))
  | .float bits => node .expression (emitConstant (.float bits))
  | .string value => node .expression (emitConstant (.string value))
  | .boolean value =>
    node .expression (discard (emit (if value then .opTrue else .opFalse)))
  | .template texts parts => node .expression (templateLiteral texts (compileExprs parts))
  | .array elements => node .expression (arrayLiteral (compileExprs elements))
  | .hash pairs => node .expression (hashLiteral (compilePairs pairs))
  | .unary operator right => node .expression (unaryExpression operator (compileExpr right))
  | .binary operator left right =>
    node .expression (binaryExpression operator (compileExpr left) (compileExpr right))
  | .index left index =>
    node .expression (indexExpression (compileExpr left) (compileExpr index))
  | .field left name =>
    node .expression (fieldExpression registry (identName left) (compileExpr left) name)
  | .call function arguments =>
    node .expression (callExpression (compileExpr function) (compileExprs arguments))
  | .ifThen condition consequence alternative =>
    node .expression (ifExpression (compileExpr condition)
      ⟨compileStmts consequence, endsInExpressionStatement consequence⟩
      (compileBlock? alternative))
  | .matchOn subject arms =>
    node .expression (matchExpression (compileExpr subject) (compileArms arms))
  | .function name parameters body =>
    node .expression (functionLiteral name parameters (compileStmts body)
      (endsInExpressionStatement body))
  | .macroLit => fail .macroNotTopLevel
  | .assign operator target value =>
    node .expression (assignExpression operator target (flattenAssignTarget target)
      (compileExpr target) (compileExpr value))
  | .structLit name fields => node .expression (structLiteral name (compileFields fields))

/-- `flattenAssignTarget`: the variable an assignment target ultimately writes, and the hops to it
in source order; nothing for a target with no variable under it. -/
def flattenAssignTarget : Expr → Option (String × List AssignStep)
  | .ident name => some (name, [])
  | .index _ .missing => none
  | .index left index =>
    (flattenAssignTarget left).map fun (base, steps) =>
      (base, steps ++ [.index (pureAssignIndex index) (compileExpr index)])
  | .field left name =>
    (flattenAssignTarget left).map fun (base, steps) => (base, steps ++ [.field name])
  | _ => none

def compileExprs : List Expr → List (CompileM Unit)
  | [] => []
  | e :: es => compileExpr e :: compileExprs es

def compilePairs : List (Expr × Expr) → List (CompileM Unit × CompileM Unit)
  | [] => []
  | (key, value) :: pairs => (compileExpr key, compileExpr value) :: compilePairs pairs

def compileFields : List (String × Expr) → List (String × CompileM Unit)
  | [] => []
  | (name, value) :: fields => (name, compileExpr value) :: compileFields fields

def compileBlock? : Option (List Stmt) → Option ValueBlock
  | none => none
  | some body => some ⟨compileStmts body, endsInExpressionStatement body⟩

def compileArms : List MatchArm → List (List (CompileM Unit) × Option ValueBlock)
  | [] => []
  | .mk patterns body :: arms => (compileExprs patterns, compileBlock? body) :: compileArms arms

/-- `compileBlockBody`: the statements, in the scope already open. -/
def compileStmts : List Stmt → CompileM Unit
  | [] => pure ()
  | s :: ss => do
    compileStmt s
    compileStmts ss

def compileExpr? : Option Expr → Option (CompileM Unit)
  | none => none
  | some e => some (compileExpr e)

def compileStmt? : Option Stmt → Option (CompileM Unit)
  | none => none
  | some s => some (compileStmt s)

/-- `Compile` of a statement. -/
def compileStmt : Stmt → CompileM Unit
  | .missing => fail .nothingToCompile
  | .expression value => node .statement (expressionStatement (compileExpr value))
  | .letIn name names value => node .statement (letStatement name names (compileExpr value))
  | .ret values => node .statement (returnStatement (compileExprs values))
  | .block body => blockStatement (compileStmts body)
  | .forLoop init condition post body =>
    node .statement (forStatement (compileStmt? init) (compileExpr? condition)
      (compileExpr? post) (compileStmts body))
  | .whileLoop .missing _ => fail .whileWithoutCondition
  | .whileLoop condition body =>
    node .statement (whileStatement (compileExpr condition) (compileStmts body))
  | .forIn key value iterable body =>
    node .statement (forInStatement key value (compileExpr iterable) (compileStmts body))
  | .breakLoop => node .breakStatement breakStatement
  | .continueLoop => node .continueStatement continueStatement
  | .structDecl name fields => node .statement (structStatement name fields)
  | .enumDecl name variants => node .statement (enumStatement name variants)
  | .importModule => node .statement (pure ())

end

/-- `randomChance`, its outcome drawn from the state. -/
def randomChance : CompileM Bool := fun s =>
  match s.chances with
  | [] => .ok false s
  | chance :: chances => .ok chance { s with chances }

/-- Emits the debugger check, and notes it. -/
def emitChkDbg : CompileM Unit := do
  discard (emit .opChkDbg)
  modify fun s => { s with hasChkDbg := true }

/-- Emits the sandbox check, and notes it. -/
def emitChkSnd : CompileM Unit := do
  discard (emit .opChkSnd)
  modify fun s => { s with hasChkSnd := true }

/-- `maybeEmitRandomSecurityCheckOpcodes`. -/
def maybeEmitRandomSecurityCheckOpcodes : CompileM Unit := do
  if (← get).injectSecurityChecks then
    if ← randomChance then emitChkDbg
    if ← randomChance then emitChkSnd

/-- The top-level statements. -/
def programStatements : List Stmt → CompileM Unit
  | [] => pure ()
  | s :: ss => do
    compileStmt registry s
    maybeEmitRandomSecurityCheckOpcodes
    programStatements ss

/-- `Compile` of a program. -/
def compileProgram (program : Program) : CompileM Unit := do
  let jumpMark ← currentPosition
  programStatements registry program.statements
  assertJumpsResolved jumpMark "the program"

/-- `ModuleScope`. -/
structure ModuleScope where
  key : String
  display : String
  namespaces : List (String × String)

/-- `EnterModule`. -/
def enterModule (scope : ModuleScope) : CompileM Unit := modify fun s =>
  let entered := s.symbolTable.setCurrentModule scope.key
  { s with
    declScopes := [[]]
    moduleDisplays := if scope.display ≠ "" then (scope.key, scope.display) :: s.moduleDisplays
      else s.moduleDisplays
    symbolTable := scope.namespaces.foldl (fun st (ns, key) => st.bindNamespace ns key) entered }

/-- The modules of a linked program, each entered and compiled by the one compiler.  A compilation
without modules, such as a line of a session, is one program that enters none. -/
def compileModules : List (Option ModuleScope × Program) → CompileM Unit
  | [] => pure ()
  | (scope, program) :: modules => do
    match scope with
    | none => pure ()
    | some scope => enterModule scope
    compileProgram registry program
    compileModules modules

end

/-- `ensureRequiredSecurityCheckOpcodes`, with the condition under which `ByteCode` runs it before it
hands the stream over. -/
def ensureRequiredSecurityCheckOpcodes : CompileM Unit := do
  if (← get).injectSecurityChecks then
    if !(← get).hasChkDbg then emitChkDbg
    if !(← get).hasChkSnd then emitChkSnd

end Mutant.Compiler
