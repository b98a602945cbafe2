/-!
# The syntax tree

A model of the nodes of `ast/` that reach code generation.  Positions and tokens are left out.  A
block is its list of statements.  Where a node's part is optional the field is an `Option`; an
expression or statement that is nil is `missing`.  No other nil is representable: the names, blocks
and fields a node lists are there.
-/

namespace Mutant.Ast

mutual

/-- Expressions. -/
inductive Expr
  /-- A nil where an expression was expected. -/
  | missing
  | ident (name : String)
  | integer (value : Int64)
  /-- A float literal, by the bits of its value. -/
  | float (bits : UInt64)
  | string (value : String)
  | boolean (value : Bool)
  /-- An interpolated string: texts and parts alternate, starting with a text. -/
  | template (texts : List String) (parts : List Expr)
  | array (elements : List Expr)
  | hash (pairs : List (Expr × Expr))
  | unary (operator : String) (right : Expr)
  | binary (operator : String) (left right : Expr)
  | index (left index : Expr)
  | field (left : Expr) (name : String)
  | call (function : Expr) (arguments : List Expr)
  | ifThen (condition : Expr) (consequence : List Stmt) (alternative : Option (List Stmt))
  | matchOn (subject : Expr) (arms : List MatchArm)
  /-- A function literal; the name is empty unless a `let` gave it one. -/
  | function (name : String) (parameters : List String) (body : List Stmt)
  | macroLit
  /-- An assignment; the operator is empty for a plain one. -/
  | assign (operator : String) (target value : Expr)
  | structLit (name : String) (fields : List (String × Expr))

/-- One arm of a `match`.  An arm with no patterns is the wildcard. -/
inductive MatchArm
  | mk (patterns : List Expr) (body : Option (List Stmt))

/-- Statements. -/
inductive Stmt
  /-- A nil where a statement was expected. -/
  | missing
  | expression (value : Expr)
  /-- `let`: the first name, and all of them when there are several. -/
  | letIn (name : String) (names : List String) (value : Expr)
  /-- `return`, with the single value and the list of values already joined. -/
  | ret (values : List Expr)
  | block (body : List Stmt)
  | forLoop (init : Option Stmt) (condition post : Option Expr) (body : List Stmt)
  | whileLoop (condition : Expr) (body : List Stmt)
  | forIn (key value : Option String) (iterable : Expr) (body : List Stmt)
  | breakLoop
  | continueLoop
  | structDecl (name : String) (fields : List String)
  | enumDecl (name : String) (variants : List String)
  | importModule

end

/-- A block. -/
abbrev Block := List Stmt

/-- A program: its top-level statements. -/
structure Program where
  statements : List Stmt

/-- `endsInExpressionStatement`: whether a block computed a value and threw it away. -/
def endsInExpressionStatement : Block → Bool
  | [] => false
  | [.expression _] => true
  | [_] => false
  | _ :: rest => endsInExpressionStatement rest

/-- `pureAssignIndex`: whether an index may be evaluated more than once. -/
def pureAssignIndex : Expr → Bool
  | .ident _ | .integer _ | .float _ | .string _ | .boolean _ => true
  | .index left index => pureAssignIndex left && pureAssignIndex index
  | .field left _ => pureAssignIndex left
  | _ => false

end Mutant.Ast
