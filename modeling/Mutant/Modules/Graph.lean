import Mathlib.Logic.Function.Basic
import Mutant.Ast.Position

/-!
# The import graph

A model of `module/graph.go`: the walk that reads the entry file and everything it imports, and
lists the modules dependencies first.

The file system, the parser and the import resolver are a `Host`: functions that do not change
while the graph is walked.  The walk carries fuel, one unit for each nested visit; `none` is a walk
that ran out of it.
-/

namespace Mutant.Modules

open Mutant.Ast

/-! ### Parsed files -/

/-- The text of a file: its bytes. -/
abbrev Source := List UInt8

/-- `ast.ImportStatement`: the alias and the path, where each was written. -/
structure ImportStatement where
  aliasName : Option String
  path : Option String
deriving DecidableEq, Repr

/-- `path.Base` of a slash-separated path. -/
def pathBase (raw : String) : String :=
  if raw.isEmpty then "."
  else
    -- trailing slashes go first, then everything up to the last slash
    let stripped := raw.toList.reverse.dropWhile (· == '/')
    if stripped.isEmpty then "/"
    else String.ofList (stripped.takeWhile (· != '/')).reverse

/-- `ImportStatement.Namespace`: the name the import binds. -/
def ImportStatement.bindsName (imp : ImportStatement) : String :=
  match imp.aliasName, imp.path with
  | some name, _ => name
  | none, none => ""
  | none, some path =>
    let base := pathBase (path.map fun c => if c == '\\' then '/' else c)
    if base.endsWith ".mut" then (base.dropEnd 4).toString else base

/-- A top-level statement, as far as loading and linking read it. -/
inductive Statement
  | importModule (imp : ImportStatement)
  | other

/-- `ast.Program`: the statements, and the three side tables that hold positions.  A node of the
tree is a number. -/
structure Program where
  statements : List Statement
  nodePositions : List (Nat × Range)
  comments : List Comment
  macroExpansions : List (Nat × MacroOrigin)

/-- A message of the parser, with the position it is about when there is one. -/
structure ParseMessage where
  position : Option Position
  text : String

/-- `Parser.PositionedErrors`, for one message. -/
def ParseMessage.positioned (path : String) (message : ParseMessage) : String :=
  match message.position with
  | none => message.text
  | some at_ =>
    if !at_.isValid then message.text
    else
      let place := toString at_.line ++ ":" ++ toString at_.column ++ ": " ++ message.text
      if path.isEmpty then place else path ++ ":" ++ place

/-! ### Errors -/

/-- What `Resolver.Resolve` reports. -/
inductive ResolveError
  | invalidPath (importer spelling reason : String)
  | notFound (importer spelling importerDir : String) (searched : List String)
deriving DecidableEq

/-- What `Load` reports. -/
inductive LoadError
  | read (path reason : String)
  | parse (path : String) (errors : List String)
  | duplicateNamespace (importer name first second : String)
  | resolve (error : ResolveError)
  | cycle (chain : List String)
deriving DecidableEq

/-- `decorateResolveError`: the file that wrote the import, unless one is named already. -/
def decorateResolveError (importer : String) : ResolveError → ResolveError
  | .notFound named spelling dir searched =>
    .notFound (if named.isEmpty then importer else named) spelling dir searched
  | .invalidPath named spelling reason =>
    .invalidPath (if named.isEmpty then importer else named) spelling reason

/-! ### The host -/

/-- The file system, the parser and the import resolver.  A file is its canonical key: two
spellings with one key are read as the same text, and the imports written there lead to the same
files. -/
structure Host where
  /-- `filepath.Abs`, cleaned. -/
  abs : String → Except String String
  dir : String → String
  displayPath : String → String
  canonicalKey : String → String
  readFile : String → Except String Source
  /-- The parser: the program, or its messages. -/
  parse : Source → Except (List ParseMessage) Program
  /-- `Resolver.Resolve`: a spelling, and the directory of the file that wrote it. -/
  resolve : String → String → Except ResolveError String
  readFile_sameFile : ∀ a b, canonicalKey a = canonicalKey b → readFile a = readFile b
  resolve_sameFile : ∀ a b spelling target, canonicalKey a = canonicalKey b →
    resolve spelling (dir a) = .ok target →
    ∃ target', resolve spelling (dir b) = .ok target' ∧ canonicalKey target' = canonicalKey target

/-! ### The walk -/

/-- An import with its target located. -/
structure ResolvedImport where
  bindsName : String
  spelling : String
  path : String
deriving DecidableEq

/-- One parsed file of the graph. -/
structure Module where
  path : String
  display : String
  source : Source
  program : Program
  imports : List ResolvedImport

/-- `Module.Key`. -/
def Module.key (h : Host) (mod : Module) : String := h.canonicalKey mod.path

/-- The loaded graph, in compile order. -/
structure Graph where
  modules : List Module
  entry : Option Module

/-- How far a file has been walked. -/
inductive WalkState
  | unseen
  | onStack
  | done
deriving DecidableEq

/-- `walker`. -/
structure Walker where
  byKey : String → Option Module
  state : String → WalkState
  order : List Module
  /-- The display names of the files being visited, outermost first. -/
  stack : List String

/-- The walker before the entry is visited. -/
def Walker.start : Walker := ⟨fun _ => none, fun _ => .unseen, [], []⟩

/-- A result of the walk: `none` when the fuel ran out. -/
abbrev Walked (α : Type) := Option (Except LoadError α)

/-- What a visit of a file returns. -/
abbrev Visit := String → Walker → Walked (Option Module × Walker)

/-- `visitImports`: the loop over the statements.  `boundBy` holds the names bound so far with the
spelling that bound each, `imports` what has been resolved so far. -/
def visitImports (h : Host) (visit : Visit) (path display : String) :
    List Statement → (boundBy : List (String × String)) → (imports : List ResolvedImport) →
    Walker → Walked (List ResolvedImport × Walker)
  | [], _, imports, w => some (.ok (imports, w))
  | .other :: rest, boundBy, imports, w => visitImports h visit path display rest boundBy imports w
  | .importModule imp :: rest, boundBy, imports, w =>
    match imp.path with
    | none => visitImports h visit path display rest boundBy imports w
    | some spelling =>
      match boundBy.lookup imp.bindsName with
      | some previous =>
        some (.error (.duplicateNamespace display imp.bindsName previous spelling))
      | none =>
        match h.resolve spelling (h.dir path) with
        | .error e => some (.error (.resolve (decorateResolveError display e)))
        | .ok target =>
          match visit target w with
          | none => none
          | some (.error e) => some (.error e)
          | some (.ok (_, w)) =>
            visitImports h visit path display rest ((imp.bindsName, spelling) :: boundBy)
              (imports ++ [⟨imp.bindsName, spelling, target⟩]) w

/-- `w.state[key] = state`. -/
def Walker.mark (w : Walker) (key : String) (state : WalkState) : Walker :=
  { w with state := Function.update w.state key state }

/-- What `visit` does to the walker before the imports of `mod` are walked. -/
def Walker.enter (w : Walker) (key : String) (mod : Module) : Walker := { w.mark key .onStack with
    stack := w.stack ++ [mod.display]
    byKey := Function.update w.byKey key (some mod) }

/-- What `visit` does once the imports of `mod` are walked.  The module is one object: what its
imports became shows in `byKey` too. -/
def Walker.leave (w : Walker) (key : String) (mod : Module) : Walker := { w.mark key .done with
    stack := w.stack.dropLast
    byKey := Function.update w.byKey key (some mod)
    order := w.order ++ [mod] }

/-- Reading and parsing one file, as `visit` does it before it marks anything. -/
def readModule (h : Host) (absolute : String) : Except LoadError Module :=
  match h.readFile absolute with
  | .error reason => .error (.read absolute reason)
  | .ok source =>
    match h.parse source with
    | .error messages =>
      .error (.parse (h.displayPath absolute)
        (messages.map (ParseMessage.positioned (h.displayPath absolute))))
    | .ok program => .ok ⟨absolute, h.displayPath absolute, source, program, []⟩

/-- `visit`: one file and everything it imports. -/
def visit (h : Host) : (fuel : Nat) → Visit
  | 0, _, _ => none
  | fuel + 1, absolute, w =>
    let key := h.canonicalKey absolute
    match w.state key with
    | .done => some (.ok (w.byKey key, w))
    | .onStack => some (.error (.cycle (w.stack ++ [h.displayPath absolute])))
    | .unseen =>
      match readModule h absolute with
      | .error e => some (.error e)
      | .ok mod =>
        match visitImports h (visit h fuel) mod.path mod.display mod.program.statements [] []
            (w.enter key mod) with
        | none => none
        | some (.error e) => some (.error e)
        | some (.ok (imports, w)) =>
          let mod := { mod with imports := imports }
          some (.ok (some mod, w.leave key mod))

/-- `Resolver.Load`. -/
def load (h : Host) (fuel : Nat) (entry : String) : Walked Graph :=
  match h.abs entry with
  | .error reason => some (.error (.read entry reason))
  | .ok absolute =>
    match visit h fuel absolute .start with
    | none => none
    | some (.error e) => some (.error e)
    | some (.ok (root, w)) => some (.ok ⟨w.order, root⟩)

end Mutant.Modules
