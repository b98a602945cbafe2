/-!
# Source positions

A model of `token.Position`, `ast.Range`, `token.Comment` and `ast.MacroOrigin`, and of the shifts
of `token/token.go` and `ast/shift.go`.
-/

namespace Mutant.Ast

/-- A location: the line (from 1; 0 when unknown), the column in bytes and the byte offset. -/
structure Position where
  line : Nat
  column : Nat
  offset : Nat
deriving DecidableEq, Repr

/-- `Position.IsValid`. -/
def Position.isValid (p : Position) : Bool := 0 < p.line

/-- `Position.Shift`: an unknown position stays unknown. -/
def Position.shift (p : Position) (lines offset : Nat) : Position :=
  if p.isValid then { p with line := p.line + lines, offset := p.offset + offset } else p

/-- A piece of source, from its start up to its end. -/
structure Range where
  start : Position
  stop : Position
deriving DecidableEq, Repr

/-- A comment the lexer set aside. -/
structure Comment where
  text : String
  start : Position
  stop : Position
deriving DecidableEq, Repr

/-- Where a macro was called and where its body stands. -/
structure MacroOrigin where
  call : Range
  definition : Range
deriving DecidableEq, Repr

end Mutant.Ast
