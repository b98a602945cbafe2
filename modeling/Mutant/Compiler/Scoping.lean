import Mutant.Compiler.SymbolTable
/-!
# Lexical scoping: the reference environment

What the symbol table is for, said without stores and undo logs.  An `Env` is the list of the
functions being compiled, innermost first, each with its open block scopes; a name means the
innermost visible declaration of it.

* `Decl` names a declaration by the table that made it and the slot it was given;
* `SymbolTable.denote` reads a symbol back as a declaration, following a free index outward through
  the `FreeSymbols` lists;
* `Session.run` issues the operations of the compiler to a table and to the reference side by side,
  and refuses a sequence that is not well nested.
-/

namespace Mutant.Compiler

/-- A declaration.  Tables are identified by their depth in the chain, the root's being 0. -/
inductive Decl
  | builtin (index : Nat)
  /-- Slot `index` of the table at `depth`. -/
  | slot (depth index : Nat)
  /-- The own name of the function whose table is at `depth`. -/
  | self (depth : Nat)
deriving DecidableEq, Repr

/-- The declarations of one scope, newest first. -/
abbrev Scope := List (String × Decl)

/-- One function under compilation: its open blocks, innermost first, the scope its parameters and
body share, and every slot its table has handed out. -/
structure FnScopes where
  blocks : List Scope := []
  body : Scope := []
  slots : List Nat := []

/-- The list of scopes, one function at a time.  `base` is what the root already showed when the
sequence began: the builtins, and the globals of the session. -/
inductive Env
  | root (fn : FnScopes) (base : String → Option Decl)
  | enclosed (fn : FnScopes) (outer : Env)

namespace FnScopes

/-- The declarations of a function that are visible now, innermost first. -/
def visible (blocks : List Scope) (body : Scope) : Scope := blocks.flatten ++ body

/-- Adds a declaration to the innermost scope. -/
def declare (fn : FnScopes) (name : String) (decl : Decl) : FnScopes :=
  match fn.blocks with
  | [] => { fn with body := (name, decl) :: fn.body }
  | scope :: rest => { fn with blocks := ((name, decl) :: scope) :: rest }

/-- Records that the table handed out a slot. -/
def claim (fn : FnScopes) (slot : Nat) : FnScopes := { fn with slots := slot :: fn.slots }

end FnScopes

namespace Env

/-- The innermost function. -/
def fn : Env → FnScopes
  | .root fn _ => fn
  | .enclosed fn _ => fn

/-- Replaces the innermost function. -/
def setFn : Env → FnScopes → Env
  | .root _ base, fn => .root fn base
  | .enclosed _ outer, fn => .enclosed fn outer

/-- The innermost visible declaration of a name. -/
def lookup : Env → String → Option Decl
  | .root fn base, name => ((FnScopes.visible fn.blocks fn.body).lookup name).or (base name)
  | .enclosed fn outer, name =>
    ((FnScopes.visible fn.blocks fn.body).lookup name).or (outer.lookup name)

/-- Every function under compilation, innermost first. -/
def functions : Env → List FnScopes
  | .root fn _ => [fn]
  | .enclosed fn outer => fn :: outer.functions

end Env

/-- The declaration a symbol of this table stands for.  A free index is followed outward: entry
`index` of `FreeSymbols` is a symbol of the next table out. -/
def SymbolTable.denote : SymbolTable → Symbol → Option Decl
  | .root _, symbol =>
    match symbol.scope with
    | .globalScope => some (.slot 0 symbol.index)
    | .localScope => some (.slot 0 symbol.index)
    | .builtinScope => some (.builtin symbol.index)
    | .functionScope => some (.self 0)
    | .freeScope => none
  | .enclosed t outer, symbol =>
    match symbol.scope with
    | .globalScope => some (.slot 0 symbol.index)
    | .localScope => some (.slot (outer.depth + 1) symbol.index)
    | .builtinScope => some (.builtin symbol.index)
    | .functionScope => some (.self (outer.depth + 1))
    | .freeScope => (t.freeSymbols[symbol.index]?).bind outer.denote

/-- What `Resolve` of a name comes to: the declaration its answer stands for. -/
def SymbolTable.resolved (st : SymbolTable) (name : String) : Option Decl :=
  (st.resolve name).1.bind (st.resolve name).2.denote

/-- The operations the compiler issues.  A function literal enters a table and, when it has a name,
defines that name in it before anything else, so the two are one operation. -/
inductive Op
  | enterFunction (name : String)
  | leaveFunction
  | openBlock
  | closeBlock
  | define (name : String)
  | defineInternal (key : String)
  | resolve (name : String)
deriving DecidableEq, Repr

/-- A spelling the lexer can produce: it has neither the blank an internal slot's key starts with
nor the byte that separates a module from a name. -/
def SourceName (name : String) : Prop := ∀ c ∈ name.toList, c ≠ ' ' ∧ c ≠ '\x00'

instance (name : String) : Decidable (SourceName name) :=
  List.decidableBAll (fun c => c ≠ ' ' ∧ c ≠ '\x00') name.toList

/-- Without the byte that joins a module's key to a name. -/
def NulFree (s : String) : Prop := ∀ c ∈ s.toList, c ≠ '\x00'

instance (s : String) : Decidable (NulFree s) := List.decidableBAll (fun c => c ≠ '\x00') s.toList

/-- A table and the reference environment of the same sequence of operations. -/
structure Session where
  table : SymbolTable
  env : Env

namespace Session

/-- One operation.  A declaration enters the reference under the slot the table answered with; an
operation that is not well nested, or spells a name no source can spell, is refused. -/
def step (σ : Session) : Op → Option Session
  | .enterFunction name =>
    if name = "" then
      some ⟨σ.table.newEnclosed, .enclosed {} σ.env⟩
    else if SourceName name then
      some ⟨σ.table.newEnclosed.defineFunctionName name,
        .enclosed { body := [(name, .self (σ.table.depth + 1))] } σ.env⟩
    else none
  | .leaveFunction =>
    match σ.table, σ.env with
    | .enclosed _ outer, .enclosed ⟨[], _, _⟩ env => some ⟨outer, env⟩
    | _, _ => none
  | .openBlock =>
    some ⟨σ.table.openBlock, σ.env.setFn { σ.env.fn with blocks := [] :: σ.env.fn.blocks }⟩
  | .closeBlock =>
    match σ.env.fn.blocks with
    | [] => none
    | _ :: rest => some ⟨σ.table.closeBlock, σ.env.setFn { σ.env.fn with blocks := rest }⟩
  | .define name =>
    if SourceName name then
      let slot := (σ.table.define name).1.index
      some ⟨(σ.table.define name).2,
        σ.env.setFn ((σ.env.fn.declare name (.slot σ.table.depth slot)).claim slot)⟩
    else none
  | .defineInternal key =>
    if SourceName key then none
    else some ⟨(σ.table.defineInternal key).2,
      σ.env.setFn (σ.env.fn.claim (σ.table.defineInternal key).1.index)⟩
  | .resolve name =>
    if SourceName name then some ⟨(σ.table.resolve name).2, σ.env⟩ else none

/-- A sequence of operations. -/
def run (σ : Session) (ops : List Op) : Option Session := ops.foldlM step σ

/-- A session as a compilation finds it: a root table with no block open, and a reference whose
outermost scope is what that table shows. -/
def start (t : Table) : Session where
  table := .root t
  env := .root { slots := List.range t.numDefinitions } (SymbolTable.root t).resolved

end Session

/-- A root table between two compilations: no block is open, nothing is captured, and every symbol
is a builtin or a global that has its slot. -/
structure Table.IsRoot (t : Table) : Prop where
  blocks : t.blocks = []
  freeSymbols : t.freeSymbols = []
  symbols : ∀ key symbol, t.store.lookup key = some symbol → symbol.scope = .builtinScope ∨
      symbol.scope = .globalScope ∧ symbol.index < t.numDefinitions

/-- The operations between an `OpenBlock` and the `CloseBlock` that matches it. -/
inductive Balanced : List Op → Prop
  | nil : Balanced []
  | define {ops} (name : String) : Balanced ops → Balanced (.define name :: ops)
  | defineInternal {ops} (key : String) : Balanced ops → Balanced (.defineInternal key :: ops)
  | resolve {ops} (name : String) : Balanced ops → Balanced (.resolve name :: ops)
  | block {inner ops} : Balanced inner → Balanced ops →
      Balanced (.openBlock :: inner ++ .closeBlock :: ops)
  | function {inner ops} (name : String) : Balanced inner → Balanced ops →
      Balanced (.enterFunction name :: inner ++ .leaveFunction :: ops)

end Mutant.Compiler
