import Mutant.Compiler.Compile
import Mutant.Compiler.Scoping
/-!
# What a failed compilation leaves behind

A session compiles one program after another over one root table.  A program that is refused leaves
the state the error was raised in: the blocks open at that point have been closed on the way out, but
`closeBlock` closes a block of the table the compiler was left with, and a function literal that fails
does not leave its own table.
-/

namespace Mutant.Compiler

open Mutant.Ast

/-! ### Names a program declares -/

/-- The names a `let` declares. -/
def letNames (name : String) (names : List String) : List String :=
  if names.length ≤ 1 then [name] else names

/-- The names a statement declares in the scope it stands in. -/
def declaredNames : Stmt → List String
  | .letIn name names _ => letNames name names
  | _ => []

/-- The names a program declares at the top level: every other name it declares, it declares inside
a block or a function. -/
def topLevelNames (program : Program) : List String := program.statements.flatMap declaredNames

/-! ### Where a program can fail -/

/-- Places inside an enclosure, seen from outside it. -/
def inside (enclosure : Enclosure) (places : List (List Enclosure)) : List (List Enclosure) :=
  places.map (· ++ [enclosure])

mutual

/-- Where the nodes of an expression stand: for each, the blocks and functions around it that belong
to the expression, innermost first. -/
def exprPlaces : Expr → List (List Enclosure)
  | .template _ parts => [] :: exprsPlaces parts
  | .array elements => [] :: exprsPlaces elements
  | .hash pairs => [] :: pairsPlaces pairs
  | .unary _ right => [] :: exprPlaces right
  | .binary _ left right => [] :: (exprPlaces left ++ exprPlaces right)
  | .index left index => [] :: (exprPlaces left ++ exprPlaces index)
  | .field left _ => [] :: exprPlaces left
  | .call function arguments => [] :: (exprPlaces function ++ exprsPlaces arguments)
  | .ifThen condition consequence alternative =>
    [] :: (exprPlaces condition ++ (inside .block (stmtsPlaces consequence) ++
      blockPlaces alternative))
  | .matchOn subject arms => [] :: (exprPlaces subject ++ armsPlaces arms)
  | .function _ _ body => [] :: inside .function (stmtsPlaces body)
  | .assign _ target value => [] :: (exprPlaces target ++ exprPlaces value)
  | .structLit _ fields => [] :: fieldsPlaces fields
  | .missing | .ident _ | .integer _ | .float _ | .string _ | .boolean _ | .macroLit => [[]]

def exprsPlaces : List Expr → List (List Enclosure)
  | [] => []
  | e :: es => exprPlaces e ++ exprsPlaces es

def pairsPlaces : List (Expr × Expr) → List (List Enclosure)
  | [] => []
  | (key, value) :: pairs => exprPlaces key ++ (exprPlaces value ++ pairsPlaces pairs)

def fieldsPlaces : List (String × Expr) → List (List Enclosure)
  | [] => []
  | (_, value) :: fields => exprPlaces value ++ fieldsPlaces fields

def blockPlaces : Option (List Stmt) → List (List Enclosure)
  | none => []
  | some body => inside .block (stmtsPlaces body)

def armsPlaces : List MatchArm → List (List Enclosure)
  | [] => []
  | .mk patterns body :: arms => exprsPlaces patterns ++ (blockPlaces body ++ armsPlaces arms)

/-- The end of the statements is a place of its own. -/
def stmtsPlaces : List Stmt → List (List Enclosure)
  | [] => [[]]
  | s :: ss => stmtPlaces s ++ stmtsPlaces ss

def exprPlaces? : Option Expr → List (List Enclosure)
  | none => []
  | some e => exprPlaces e

def stmtPlaces? : Option Stmt → List (List Enclosure)
  | none => []
  | some s => stmtPlaces s

/-- Where the nodes of a statement stand.  A `for` loop is a block, and its body is one inside of
that. -/
def stmtPlaces : Stmt → List (List Enclosure)
  | .expression value => [] :: exprPlaces value
  | .letIn _ _ value => [] :: exprPlaces value
  | .ret values => [] :: exprsPlaces values
  | .block body => [] :: inside .block (stmtsPlaces body)
  | .forLoop init condition post body => [] :: inside .block ([] :: (stmtPlaces? init ++
      (exprPlaces? condition ++ (exprPlaces? post ++ inside .block (stmtsPlaces body)))))
  | .whileLoop condition body => [] :: (exprPlaces condition ++ inside .block (stmtsPlaces body))
  | .forIn _ _ iterable body =>
    [] :: inside .block ([] :: (exprPlaces iterable ++ inside .block (stmtsPlaces body)))
  | .breakLoop | .continueLoop | .missing | .structDecl _ _ | .enumDecl _ _ | .importModule => [[]]

end

/-! ### The session after an error -/

/-- The session's root table is as a later program needs it: no block is open, and a name the program
did not declare at its top level means what it meant. -/
def SessionIntact (program : Program) (before after : Table) : Prop :=
  after.blocks = [] ∧ ∀ name, SourceName name → name ∉ topLevelNames program →
    ((SymbolTable.root after).resolve name).1 = ((SymbolTable.root before).resolve name).1

/-- The failing node lies in a function literal, and the outermost function literal around it lies in
a block. -/
def Failure.InFunctionInBlock (e : Failure) : Prop :=
  .function ∈ e.path ∧ e.path.getLast? = some .block

instance (e : Failure) : Decidable e.InFunctionInBlock := by
  unfold Failure.InFunctionInBlock
  infer_instance

end Mutant.Compiler
