import Mutant.Ast.Position
/-!
# The errors of a parse

A model of how the parser records what it complains of (`parser/parser.go`,
`parser/parse_template.go`).  Messages and their ranges are kept in two lists: `appendError` adds to
both until the limit, when it adds a note to the first alone, and the errors of the parser of a hole
are added at the end of each.  What a parse does to the lists is a sequence of such events.
-/

namespace Mutant.Parser

open Mutant.Ast

/-- A token, as far as errors depend on it.  The lexer gives every token a line. -/
structure Token where
  start : Position
  stop : Position
  valid : start.isValid = true

/-- `ParseError`. -/
structure ParseError where
  msg : String
  range : Range

/-- `maxParseErrors`. -/
def maxParseErrors : Nat := 100

/-- The note that the limit has been reached. -/
def limitNote : String := "too many parse errors; stopped reporting after " ++ toString maxParseErrors

/-- What is said of a message that comes from a hole. -/
def insideHole (msg : String) : String := "inside $\x7b...\x7d: " ++ msg

/-- The error lists of a parser. -/
structure Errors where
  errors : List String := []
  typedErrors : List ParseError := []

/-- `appendError`. -/
def Errors.appendError (p : Errors) (tok : Token) (msg : String) : Errors :=
  if maxParseErrors ≤ p.errors.length then
    if p.errors.length = maxParseErrors then { p with errors := p.errors ++ [limitNote] } else p
  else ⟨p.errors ++ [msg], p.typedErrors ++ [⟨msg, tok.start, tok.stop⟩]⟩

/-- The end of `parseHole`: the errors of the hole's parser are taken over. -/
def Errors.takeOver (p sub : Errors) : Errors :=
  ⟨p.errors ++ sub.errors.map insideHole, p.typedErrors ++ sub.typedErrors⟩

/-- A message with its position before it. -/
def positioned (path : String) (start : Position) (msg : String) : String :=
  if !start.isValid then msg
  else
    let place := toString start.line ++ ":" ++ toString start.column ++ ": " ++ msg
    if path = "" then place else path ++ ":" ++ place

/-- `PositionedErrors`. -/
def Errors.positionedErrors (p : Errors) (path : String) : List String :=
  p.errors.mapIdx fun i msg =>
    match p.typedErrors[i]? with
    | none => msg
    | some error => positioned path error.range.start msg

/-! ### What a parse does -/

/-- A call of `appendError`, or a hole whose parser did what is listed. -/
inductive Event
  | raised (tok : Token) (msg : String)
  | hole (inside : List Event)

mutual

def Event.record (p : Errors) : Event → Errors
  | .raised tok msg => p.appendError tok msg
  | .hole inside => p.takeOver (recordAll {} inside)

/-- What a parser with the errors `p` has after the events. -/
def recordAll (p : Errors) : List Event → Errors
  | [] => p
  | e :: es => recordAll (e.record p) es

end

/-- A hole of a template: its source without the space around it, and where it starts. -/
structure StringPart where
  trimmed : String
  start : Position

/-- `line:column` of a hole, as the messages about it give it. -/
def StringPart.place (part : StringPart) : String :=
  toString part.start.line ++ ":" ++ toString part.start.column

/-- What `parseHole` meets: the first token of the source begins a statement, or the source is parsed
as an expression, after which more may follow. -/
inductive HoleSource
  | statement (keyword : String)
  | expression (inside : List Event) (more : Bool)

/-- `parseHole`, in the parser whose current token is `tok`. -/
def parseHole (tok : Token) (part : StringPart) (source : HoleSource) : List Event :=
  if part.trimmed = "" then [.raised tok ("empty $\x7b\x7d at line " ++ part.place ++
    ": a hole needs an expression between the braces, and a literal $\x7b is written \\$\x7b")]
  else
    match source with
    | .statement keyword => [.raised tok (keyword ++ " at line " ++ part.place ++
        " starts a statement, and a hole has to be an expression: " ++
        "it has to produce the value that goes into the string")]
    | .expression inside more =>
      (if more then [.raised tok ("$\x7b" ++ part.trimmed ++ "\x7d at line " ++ part.place ++
        " holds more than one expression: a hole produces one value")] else []) ++ [.hole inside]

/-! ### What was complained of -/

/-- A message, and the error it is about; a note about the limit is about none. -/
structure Message where
  text : String
  error : Option ParseError

mutual

def Event.messages (ms : List Message) : Event → List Message
  | .raised tok msg =>
    if maxParseErrors ≤ ms.length then
      if ms.length = maxParseErrors then ms ++ [⟨limitNote, none⟩] else ms
    else ms ++ [⟨msg, some ⟨msg, tok.start, tok.stop⟩⟩]
  | .hole inside => ms ++ (messagesAll [] inside).map fun m => { m with text := insideHole m.text }

/-- The messages after the events, each with its own error. -/
def messagesAll (ms : List Message) : List Event → List Message
  | [] => ms
  | e :: es => messagesAll (e.messages ms) es

end

/-- A message at the position of its own error. -/
def Message.show (path : String) (m : Message) : String :=
  match m.error with
  | none => m.text
  | some error => positioned path error.range.start m.text

/-- The limit has been noted, by this parser or by that of a hole it took over. -/
def Limited (ms : List Message) : Prop := ∃ m ∈ ms, m.error = none

mutual

/-- After the messages `ms` the event does not take over errors past a note about the limit. -/
def Event.Orderly (ms : List Message) : Event → Prop
  | .raised _ _ => True
  | .hole inside => OrderlyAll [] inside ∧ (Limited ms → messagesAll [] inside = [])

/-- No hole with errors is parsed once the limit has been noted. -/
def OrderlyAll (ms : List Message) : List Event → Prop
  | [] => True
  | e :: es => e.Orderly ms ∧ OrderlyAll (e.messages ms) es

end

end Mutant.Parser
