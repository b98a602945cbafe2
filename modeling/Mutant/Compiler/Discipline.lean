import Mutant.Code.Effect
import Mutant.Compiler.Compile
/-!
# What well-formed compiled code is

Three properties of an emitted stream, over the spans recorded while it was compiled:

* `DepthMap`: one stack depth per offset, consistent along every edge, that the nodes respect;
* `StackDiscipline`: such a map exists, and every break and continue lands at the depth its loop was
  entered with;
* `JumpsResolved`: every jump goes to an instruction of the stream or to its end, and every break and
  continue to the end or the resumption point of the innermost loop around it.

The last section says, on the syntax tree, which programs have a break or continue that leaves an
operand behind.
-/

namespace Mutant.Compiler

open Mutant.Code Mutant.Ast

/-! ### Depths -/

/-- The values a node leaves on the stack. -/
def NodeKind.leaves : NodeKind → Nat
  | .expression => 1
  | .statement | .breakStatement | .continueStatement => 0

/-- `D` gives every offset of the stream a depth above the frame's base: no instruction takes more
than is there, every fall-through and every jump edge changes the depth by what the instruction
does, every expression leaves one value and every statement none.  The jumps at `pending` offsets
have no target yet. -/
structure DepthMap (is : Instructions) (pending : List Nat) (nodes : List NodeSpan)
    (D : Nat → Nat) : Prop where
  pops : ∀ p i, At is p i → i.pops ≤ D p
  falls : ∀ p i n, At is p i → i.falls = some n → D (p + i.size) + i.pops = D p + n
  jumps : ∀ p i t, At is p i → p ∉ pending → i.target? = some t → D t + i.pops = D p + i.lands
  nodes : ∀ n ∈ nodes, D n.stop = D n.start + n.kind.leaves

/-! ### Loop control -/

/-- The bytes of a jump. -/
def jumpSize : Nat := 3

/-- The offset of the jump a break or continue node ends in. -/
def NodeSpan.jumpOffset (n : NodeSpan) : Nat := n.stop - jumpSize

/-- An offset in the part of a loop whose breaks and continues are the loop's. -/
def LoopSpan.Encloses (l : LoopSpan) (p : Nat) : Prop := l.body ≤ p ∧ p < l.jump

/-- The innermost of the loops around an offset. -/
structure Innermost (loops : List LoopSpan) (l : LoopSpan) (p : Nat) : Prop where
  mem : l ∈ loops
  encloses : l.Encloses p
  innermost : ∀ l' ∈ loops, l'.Encloses p → l'.body ≤ l.body ∧ l.jump ≤ l'.jump

/-- The depth at which a loop's end and its resumption point expect the stack. -/
def LoopSpan.landing (D : Nat → Nat) (l : LoopSpan) : Nat := D l.start + l.cursor.toNat

/-- Where a break or a continue of a loop goes. -/
def LoopSpan.target (l : LoopSpan) : NodeKind → Nat
  | .continueStatement => l.resume
  | _ => l.stop

/-- A node that leaves its loop. -/
def NodeKind.IsLoopControl (k : NodeKind) : Prop := k = .breakStatement ∨ k = .continueStatement

/-- A stream whose stack can be accounted for. -/
def StackDiscipline (is : Instructions) (nodes : List NodeSpan) (loops : List LoopSpan) : Prop :=
  ∃ D, D 0 = 0 ∧ DepthMap is [] nodes D ∧
    ∀ n ∈ nodes, n.kind.IsLoopControl → ∃ l, Innermost loops l n.jumpOffset ∧
      At is n.jumpOffset ⟨.opJump, [l.target n.kind]⟩ ∧
      D n.jumpOffset = l.landing D ∧ D (l.target n.kind) = l.landing D

/-- A stream in which no jump is left without a target. -/
structure JumpsResolved (is : Instructions) (nodes : List NodeSpan) (loops : List LoopSpan) :
    Prop where
  boundary : ∀ p i, At is p i → ∀ k ∈ i.op.jumpOperands, ∃ t, i.operands[k]? = some t ∧ Boundary is t
  control : ∀ n ∈ nodes, n.kind.IsLoopControl → ∃ l, Innermost loops l n.jumpOffset ∧
    At is n.jumpOffset ⟨.opJump, [l.target n.kind]⟩

/-- A compiler that has written nothing yet, as before the first module of a program.  Its names, types
and constants may be those of earlier programs. -/
structure CompilerState.AtStart (s : CompilerState) : Prop where
  scope : s.scope = {}
  loopContexts : s.loopContexts = []

/-- What holds of every stream written between `s` and `s'`: the main one, and the functions added to
the constants. -/
def EveryStream (P : Instructions → List NodeSpan → List LoopSpan → Prop) (s s' : CompilerState) :
    Prop :=
  P s'.scope.instructions s'.scope.nodes s'.scope.loops ∧
    ∀ fn, .function fn ∈ s'.constants.drop s.constants.length → P fn.instructions fn.nodes fn.loops

/-! ### Programs that leave an operand behind -/

/-- Whether an assignment target ends in an index that must not be evaluated twice. -/
def endsInImpureIndex : Expr → Bool
  | .index _ index => !pureAssignIndex index
  | _ => false

/-- What loop control a piece of syntax holds. -/
structure LoopFlow where
  /-- It holds a break or continue of a loop outside it. -/
  control : Bool := false
  /-- One of those stands in the right-hand side of a compound assignment whose target ends in an
  index that must not be evaluated twice. -/
  leaks : Bool := false
  /-- A loop inside it, or inside a function inside it, has a body or post section that leaks. -/
  undisciplined : Bool := false
deriving DecidableEq, Repr

namespace LoopFlow

/-- The flow of two pieces together. -/
def join (a b : LoopFlow) : LoopFlow :=
  ⟨a.control || b.control, a.leaks || b.leaks, a.undisciplined || b.undisciplined⟩

/-- The flow of the right-hand side of an assignment that reads its target through a spilled index. -/
def folded (a : LoopFlow) : LoopFlow := { a with leaks := a.leaks || a.control }

/-- The flow of what only a loop's own breaks and continues can leave: a body, a post section. -/
def looped (a : LoopFlow) : LoopFlow := { undisciplined := a.undisciplined || a.leaks }

/-- The flow of a function, whose body no break leaves. -/
def inFunction (a : LoopFlow) : LoopFlow := { undisciplined := a.undisciplined }

end LoopFlow

mutual

/-- The loop control of an expression. -/
def exprFlow : Expr → LoopFlow
  | .template texts parts => partsFlow texts.length parts
  | .array elements => exprsFlow elements
  | .hash pairs => pairsFlow pairs
  | .unary _ right => exprFlow right
  | .binary _ left right => (exprFlow left).join (exprFlow right)
  | .index left index => (exprFlow left).join (exprFlow index)
  | .field left _ => exprFlow left
  | .call function arguments => (exprFlow function).join (exprsFlow arguments)
  | .ifThen condition consequence alternative =>
    (exprFlow condition).join ((stmtsFlow consequence).join (blockFlow alternative))
  | .matchOn subject arms => (exprFlow subject).join (armsFlow arms)
  | .function _ _ body => (stmtsFlow body).inFunction
  | .assign operator target value =>
    (exprFlow target).join (if operator ≠ "" ∧ endsInImpureIndex target then (exprFlow value).folded
      else exprFlow value)
  | .structLit _ fields => fieldsFlow fields
  | .missing | .ident _ | .integer _ | .float _ | .string _ | .boolean _ | .macroLit => {}

def exprsFlow : List Expr → LoopFlow
  | [] => {}
  | e :: es => (exprFlow e).join (exprsFlow es)

/-- The parts of an interpolated string, one after each of its `n` texts. -/
def partsFlow : (n : Nat) → List Expr → LoopFlow
  | n + 1, e :: es => (exprFlow e).join (partsFlow n es)
  | _, _ => {}

def pairsFlow : List (Expr × Expr) → LoopFlow
  | [] => {}
  | (key, value) :: pairs => ((exprFlow key).join (exprFlow value)).join (pairsFlow pairs)

def fieldsFlow : List (String × Expr) → LoopFlow
  | [] => {}
  | (_, value) :: fields => (exprFlow value).join (fieldsFlow fields)

def blockFlow : Option (List Stmt) → LoopFlow
  | none => {}
  | some body => stmtsFlow body

def armsFlow : List MatchArm → LoopFlow
  | [] => {}
  | .mk patterns body :: arms =>
    ((exprsFlow patterns).join (blockFlow body)).join (armsFlow arms)

def stmtsFlow : List Stmt → LoopFlow
  | [] => {}
  | s :: ss => (stmtFlow s).join (stmtsFlow ss)

def exprFlow? : Option Expr → LoopFlow
  | none => {}
  | some e => exprFlow e

def stmtFlow? : Option Stmt → LoopFlow
  | none => {}
  | some s => stmtFlow s

/-- The loop control of a statement.  A loop's header is outside the loop; its body and its post
section are not. -/
def stmtFlow : Stmt → LoopFlow
  | .expression value => exprFlow value
  | .letIn _ _ value => exprFlow value
  | .ret values => exprsFlow values
  | .block body => stmtsFlow body
  | .forLoop init condition post body =>
    ((stmtFlow? init).join (exprFlow? condition)).join
      ((stmtsFlow body).join (exprFlow? post)).looped
  | .whileLoop condition body => (exprFlow condition).join (stmtsFlow body).looped
  | .forIn _ _ iterable body => (exprFlow iterable).join (stmtsFlow body).looped
  | .breakLoop | .continueLoop => { control := true }
  | .missing | .structDecl _ _ | .enumDecl _ _ | .importModule => {}

end

/-- A program in which no break or continue leaves an operand behind: none of a loop stands in the
right-hand side of a compound assignment inside that loop whose target ends in an index that must
not be evaluated twice. -/
def Disciplined (program : Program) : Prop := (stmtsFlow program.statements).undisciplined = false

instance (program : Program) : Decidable (Disciplined program) :=
  inferInstanceAs (Decidable (_ = false))

end Mutant.Compiler
