import Mutant.Lib.Lines
import Mutant.Modules.Graph

/-!
# Linking

A model of `module/link.go`, of `ShiftPositions` of `ast/shift.go`, and of the lookups between the
lines of the linked text and the lines of the files, of `compiler/compiler.go`.
-/

namespace Mutant.Modules

open Mutant.Ast

/-- The byte of a newline. -/
def newline : UInt8 := 10

/-! ### Positions -/

/-- The program with every position of its tables passed through `f`. -/
def Program.mapPositions (f : Position → Position) (p : Program) : Program :=
  let onRange (r : Range) : Range := ⟨f r.start, f r.stop⟩
  { p with
    nodePositions := p.nodePositions.map fun (node, r) => (node, onRange r)
    comments := p.comments.map fun c => { c with start := f c.start, stop := f c.stop }
    macroExpansions := p.macroExpansions.map fun (node, origin) =>
      (node, ⟨onRange origin.call, onRange origin.definition⟩) }

/-- `Program.ShiftPositions`. -/
def Program.shiftPositions (p : Program) (lines offset : Nat) : Program :=
  if lines = 0 ∧ offset = 0 then p else p.mapPositions (·.shift lines offset)

/-! ### The linked text -/

/-- `ModuleSpan`: where one module begins in the linked text. -/
structure ModuleSpan where
  path : String
  startLine : Nat
deriving DecidableEq, Repr

/-- `Linked`. -/
structure Linked where
  sourceText : Source
  spans : List ModuleSpan
  modules : List Module
  entryPath : String

/-- The running counts of `Link`, with what it has built so far. -/
structure Linking where
  text : Source
  spans : List ModuleSpan
  modules : List Module
  line : Nat
  offset : Nat

/-- The text a module adds: its source, ended by a newline. -/
def chunk (source : Source) : Source :=
  if source.getLast? = some newline then source else source ++ [newline]

/-- One round of the loop of `Link`. -/
def Linking.add (st : Linking) (mod : Module) : Linking where
  spans := st.spans ++ [⟨mod.display, st.line⟩]
  modules := st.modules ++
    [{ mod with program := mod.program.shiftPositions (st.line - 1) st.offset }]
  text := st.text ++ chunk mod.source
  line := st.line + (chunk mod.source).count newline
  offset := st.offset + (chunk mod.source).length

/-- `Graph.Link`; `none` is the nil dereference of a graph that has modules and no entry. -/
def Graph.link (g : Graph) : Option Linked :=
  if g.modules.isEmpty then some ⟨[], [], [], ""⟩
  else
    let st := g.modules.foldl Linking.add ⟨[], [], [], 1, 0⟩
    g.entry.map fun entry => ⟨st.text, st.spans, st.modules, entry.display⟩

/-! ### Lines of the linked text and lines of the files -/

/-- `filepath.Clean` and `filepath.Base`. -/
structure PathRules where
  clean : String → String
  base : String → String

/-- `filepath.Clean` where the separator is a slash: empty segments and dots go, and two dots take
the segment before them away. -/
def unixClean (path : String) : String :=
  let chars := path.toList
  let rooted : Bool := chars.head? == some '/'
  let step (out : List (List Char)) (segment : List Char) : List (List Char) :=
    if segment = [] ∨ segment = ['.'] then out
    else if segment = ['.', '.'] then
      match out with
      | [] => if rooted then [] else [segment]
      | last :: front => if last = ['.', '.'] then segment :: last :: front else front
    else segment :: out
  let segments := ((Lines.split '/' chars).foldl step []).reverse
  let joined := List.intercalate ['/'] segments
  if rooted then String.ofList ('/' :: joined)
  else if segments = [] then "." else String.ofList joined

/-- The rules of a host whose separator is a slash. -/
def unixPaths : PathRules := ⟨unixClean, pathBase⟩

/-- The parts of `ByteCode` the lookups read. -/
structure SourceMap where
  sourceFile : String
  sourceText : Source
  moduleSpans : List ModuleSpan

/-- What the compiler puts into the byte code of a linked program. -/
def Linked.sourceMap (l : Linked) : SourceMap := ⟨l.entryPath, l.sourceText, l.spans⟩

/-- `ByteCode.ModuleAt`: the file and the line in it that a line of the linked text came from. -/
def SourceMap.moduleAt (bc : SourceMap) (line : Nat) : Option (String × Nat) :=
  if bc.moduleSpans.isEmpty ∨ line = 0 then none
  else (bc.moduleSpans.reverse.find? (·.startLine ≤ line)).map fun span =>
    (span.path, line - span.startLine + 1)

/-- `blobLineCount`. -/
def blobLineCount (text : Source) : Nat :=
  if text.isEmpty then 0
  else if text.getLast? = some newline then text.count newline else text.count newline + 1

/-- `ByteCode.spanLastLine`: the last line of a span, where something bounds it. -/
def SourceMap.spanLastLine (bc : SourceMap) (index : Nat) : Option Nat :=
  match bc.moduleSpans[index + 1]? with
  | some next => some (next.startLine - 1)
  | none =>
    let lines := blobLineCount bc.sourceText
    if 0 < lines then some lines else none

variable (paths : PathRules)

/-- `ByteCode.entrySpan`. -/
def SourceMap.entrySpan (bc : SourceMap) : Option Nat :=
  if bc.moduleSpans.isEmpty then none
  else
    let named :=
      if bc.sourceFile = "" then none
      -- the scan runs backwards
      else bc.moduleSpans.reverse.findIdx? fun span =>
        paths.clean span.path == paths.clean bc.sourceFile
    match named with
    | some fromEnd => some (bc.moduleSpans.length - 1 - fromEnd)
    | none => some (bc.moduleSpans.length - 1)

/-- `ByteCode.moduleSpanFor`: by the cleaned path, else by a base name that only one span has. -/
def SourceMap.moduleSpanFor (bc : SourceMap) (path : String) : Option Nat :=
  if path = "" then bc.entrySpan paths
  else
    match bc.moduleSpans.findIdx? fun span => paths.clean span.path == paths.clean path with
    | some index => some index
    | none =>
      let sameBase (span : ModuleSpan) : Bool :=
        paths.base span.path == paths.base (paths.clean path)
      if 1 < bc.moduleSpans.countP sameBase then none else bc.moduleSpans.findIdx? sameBase

/-- `ByteCode.ModuleLine`: the line of the linked text that a line of a file became. -/
def SourceMap.moduleLine (bc : SourceMap) (path : String) (line : Nat) : Option Nat :=
  if line = 0 then none
  else if bc.moduleSpans.isEmpty then some line
  else
    match bc.moduleSpanFor paths path with
    | none => none
    | some index =>
      match bc.moduleSpans[index]? with
      | none => none
      | some span =>
        let absLine := span.startLine + line - 1
        match bc.spanLastLine index with
        | some last => if last < absLine then none else some absLine
        | none => some absLine

end Mutant.Modules
