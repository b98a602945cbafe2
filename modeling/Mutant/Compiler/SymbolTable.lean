import Mathlib.Data.List.AList
import Mathlib.Data.List.Sort
/-!
# The compiler's symbol table

A model of `compiler/symbol_table.go`.  A table is one function's (or the root's) own name map;
the `Outer` chain is the inductive type `SymbolTable`, innermost table first, so that an operation
which also writes the enclosing tables (`resolve` marks captures there) returns the whole chain.

Blocks are not tables: an open block is a `BlockFrame`, the undo log `closeBlock` replays.  The
open blocks are kept innermost first.
-/

namespace Mutant.Compiler

/-- Where a symbol lives, and so which family of opcodes reads and writes it. -/
inductive SymbolScope
  | globalScope
  | localScope
  | builtinScope
  | freeScope
  | functionScope
deriving DecidableEq, Repr

/-- What a name means: the storage class and the index in it. -/
structure Symbol where
  name : String
  scope : SymbolScope
  index : Nat
deriving DecidableEq, Repr

/-- One binding a block scope displaced.  `previous` is `none` when the name meant nothing before,
which the source records as `existed = false`. -/
structure Shadowed where
  key : String
  previous : Option Symbol
deriving DecidableEq, Repr

/-- One open block scope: what has to be undone, oldest record first. -/
structure BlockFrame where
  undo : List Shadowed := []
deriving DecidableEq, Repr

/-- The name map of one table. -/
abbrev Store := AList (fun _ : String => Symbol)

/-- One symbol table without its `Outer` pointer.  `builtinRefs`, `currentModule` and
`moduleNamespaces` are only ever read in the root table's copy. -/
structure Table where
  store : Store := ∅
  numDefinitions : Nat := 0
  freeSymbols : List Symbol := []
  blocks : List BlockFrame := []
  /-- The boxed local slots, ascending: the set the source sorts when it is read. -/
  capturedLocals : List Nat := []
  builtinRefs : List String := []
  currentModule : String := ""
  moduleNamespaces : List ((String × String) × String) := []

/-- A table together with the chain of tables that enclose it. -/
inductive SymbolTable
  | root (table : Table)
  | enclosed (table : Table) (outer : SymbolTable)

/-- The byte that joins a module key to a top-level name. -/
def moduleSeparator : String := "\x00"

/-- The store key a module's top-level name is filed under. -/
def qualify (module name : String) : String :=
  if module = "" then name else module ++ moduleSeparator ++ name

/-! ### One table -/

namespace Table

/-- `OpenBlock` on one table. -/
def openBlock (t : Table) : Table := { t with blocks := {} :: t.blocks }

/-- Puts back one displaced binding. -/
def restore (store : Store) (entry : Shadowed) : Store :=
  match entry.previous with
  | some previous => store.insert entry.key previous
  | none => store.erase entry.key

/-- Replays an undo log, newest record first. -/
def undoAll (store : Store) (undo : List Shadowed) : Store :=
  undo.foldr (fun entry acc => restore acc entry) store

/-- `CloseBlock`: a no-op when nothing is open. -/
def closeBlock (t : Table) : Table :=
  match t.blocks with
  | [] => t
  | frame :: rest => { t with blocks := rest, store := undoAll t.store frame.undo }

/-- `noteShadowed`: records what a declaration under `key` is about to displace. -/
def noteShadowed (t : Table) (key : String) : Table :=
  match t.blocks with
  | [] => t
  | frame :: rest =>
    { t with blocks := { undo := frame.undo ++ [⟨key, t.store.lookup key⟩] } :: rest }

/-- Files `symbol` under `key` and takes the next slot. -/
def allocate (t : Table) (key : String) (symbol : Symbol) : Table :=
  { t with store := t.store.insert key symbol, numDefinitions := t.numDefinitions + 1 }

/-- `markCaptured`: local slot `index` has to live in a cell. -/
def markCaptured (t : Table) (index : Nat) : Table :=
  if index ∈ t.capturedLocals then t
  else { t with capturedLocals := t.capturedLocals.orderedInsert (· ≤ ·) index }

/-- `defineFree`: appends a capture and files it under the original's name. -/
def defineFree (t : Table) (original : Symbol) : Symbol × Table :=
  let symbol : Symbol := ⟨original.name, .freeScope, t.freeSymbols.length⟩
  (symbol, { t with
    freeSymbols := t.freeSymbols ++ [original]
    store := t.store.insert original.name symbol })

/-- `DefineFunctionName`. -/
def defineFunctionName (t : Table) (name : String) : Table :=
  { t with store := t.store.insert name ⟨name, .functionScope, 0⟩ }

/-- `DefineBuiltin`. -/
def defineBuiltin (t : Table) (index : Nat) (name : String) : Table :=
  { t with store := t.store.insert name ⟨name, .builtinScope, index⟩ }

end Table

/-! ### The chain -/

namespace SymbolTable

/-- `NewSymbolTable`. -/
def new : SymbolTable := .root {}

/-- `NewEnclosedSymbolTable`. -/
def newEnclosed (outer : SymbolTable) : SymbolTable := .enclosed {} outer

/-- The innermost table. -/
def table : SymbolTable → Table
  | .root t => t
  | .enclosed t _ => t

/-- Replaces the innermost table. -/
def setTable : SymbolTable → Table → SymbolTable
  | .root _, t => .root t
  | .enclosed _ outer, t => .enclosed t outer

/-- The `Outer` field; the root's is nil. -/
def outer? : SymbolTable → Option SymbolTable
  | .root _ => none
  | .enclosed _ outer => some outer

/-- `root`: the table that owns the compilation unit. -/
def rootTable : SymbolTable → Table
  | .root t => t
  | .enclosed _ outer => outer.rootTable

/-- Updates the root table in place. -/
def modifyRoot (f : Table → Table) : SymbolTable → SymbolTable
  | .root t => .root (f t)
  | .enclosed t outer => .enclosed t (outer.modifyRoot f)

/-- How many functions enclose the innermost table: 0 at the root. -/
def depth : SymbolTable → Nat
  | .root _ => 0
  | .enclosed _ outer => outer.depth + 1

/-- `OpenBlock`. -/
def openBlock (st : SymbolTable) : SymbolTable := st.setTable st.table.openBlock

/-- `CloseBlock`. -/
def closeBlock (st : SymbolTable) : SymbolTable := st.setTable st.table.closeBlock

/-- The scope a definition of this table gets. -/
def ownScope : SymbolTable → SymbolScope
  | .root _ => .globalScope
  | .enclosed _ _ => .localScope

/-- The store key of a definition of this table: only the root qualifies it by the module. -/
def ownKey : SymbolTable → String → String
  | .root t, name => qualify t.currentModule name
  | .enclosed _ _, name => name

/-- `Define`. -/
def define (st : SymbolTable) (name : String) : Symbol × SymbolTable :=
  let symbol : Symbol := ⟨name, st.ownScope, st.table.numDefinitions⟩
  let key := st.ownKey name
  (symbol, st.setTable ((st.table.noteShadowed key).allocate key symbol))

/-- `DefineInternal`: `Define` with an empty name, and no undo record. -/
def defineInternal (st : SymbolTable) (key : String) : Symbol × SymbolTable :=
  let symbol : Symbol := ⟨"", st.ownScope, st.table.numDefinitions⟩
  (symbol, st.setTable (st.table.allocate (st.ownKey key) symbol))

/-- `ResolveInternal`. -/
def resolveInternal (st : SymbolTable) (key : String) : Option Symbol :=
  st.table.store.lookup (st.ownKey key)

/-- `DefineFunctionName`. -/
def defineFunctionName (st : SymbolTable) (name : String) : SymbolTable :=
  st.setTable (st.table.defineFunctionName name)

/-- `DefineBuiltin`. -/
def defineBuiltin (st : SymbolTable) (index : Nat) (name : String) : SymbolTable :=
  st.setTable (st.table.defineBuiltin index name)

/-- `own`: this table's own store.  At the root of a modular program the current module's top level
is tried first and the bare name, where the builtins are, second. -/
def own : SymbolTable → String → Option Symbol
  | .root t, name =>
    if t.currentModule ≠ "" then
      match t.store.lookup (qualify t.currentModule name) with
      | some symbol => some symbol
      | none => t.store.lookup name
    else t.store.lookup name
  | .enclosed t _, name => t.store.lookup name

/-- `Resolve`: looks a name up, walking outward, and records a capture in every table between the
one that declares the name and this one. -/
def resolve : SymbolTable → String → Option Symbol × SymbolTable
  | .root t, name => (own (.root t) name, .root t)
  | .enclosed t outer, name =>
    match t.store.lookup name with
    | some symbol => (some symbol, .enclosed t outer)
    | none =>
      match outer.resolve name with
      | (none, outer') => (none, .enclosed t outer')
      | (some original, outer') =>
        if original.scope = .globalScope ∨ original.scope = .builtinScope then
          (some original, .enclosed t outer')
        else
          -- A local original is a slot of the table one hop out, so that table has to box it.  A
          -- free original was marked by the recursive call, and a function's own name is no slot.
          let outer'' :=
            if original.scope = .localScope then
              outer'.setTable (outer'.table.markCaptured original.index)
            else outer'
          let (free, t') := t.defineFree original
          (some free, .enclosed t' outer'')

/-- `freeCapturesFunctionName`: whether a free index ultimately names an enclosing function. -/
def freeCapturesFunctionName : SymbolTable → Nat → Bool
  | .root t, index =>
    match t.freeSymbols[index]? with
    | none => false
    | some original => original.scope = .functionScope
  | .enclosed t outer, index =>
    match t.freeSymbols[index]? with
    | none => false
    | some original =>
      if original.scope = .freeScope then outer.freeCapturesFunctionName original.index
      else original.scope = .functionScope

/-! ### Modules and builtins, kept in the root table -/

/-- `SetCurrentModule`. -/
def setCurrentModule (st : SymbolTable) (key : String) : SymbolTable :=
  st.modifyRoot fun t => { t with currentModule := key }

/-- `BindNamespace`. -/
def bindNamespace (st : SymbolTable) (ns key : String) : SymbolTable := st.modifyRoot fun t =>
    { t with moduleNamespaces := ((t.currentModule, ns), key) :: t.moduleNamespaces }

/-- `LookupNamespace`. -/
def lookupNamespace (st : SymbolTable) (ns : String) : Option String :=
  st.rootTable.moduleNamespaces.lookup (st.rootTable.currentModule, ns)

/-- `ResolveIn`: another module's top-level definition. -/
def resolveIn (st : SymbolTable) (key name : String) : Option Symbol :=
  st.rootTable.store.lookup (qualify key name)

/-- `ReferenceBuiltin`: interns a builtin's name and returns its operand. -/
def referenceBuiltin (st : SymbolTable) (name : String) : Nat × SymbolTable :=
  let refs := st.rootTable.builtinRefs
  if refs.idxOf name < refs.length then (refs.idxOf name, st)
  else (refs.length, st.modifyRoot fun t => { t with builtinRefs := t.builtinRefs ++ [name] })

end SymbolTable

end Mutant.Compiler
