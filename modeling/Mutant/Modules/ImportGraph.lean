import Mathlib.Data.Set.Card
import Mutant.Lib.PostOrder
import Mutant.Modules.Graph

/-!
# What loading is for

The import graph of a host, whose nodes are files (canonical keys), and what the loader should
answer: every file that can be reached, each once and after all it imports, or a cycle that is
there, or a defect of a file that can be reached.
-/

namespace Mutant.Modules

open PostOrder

/-- The file at `a` holds an import that resolves to `b`. -/
def Host.Imports (h : Host) (a b : String) : Prop :=
  ∃ mod, readModule h a = .ok mod ∧ ∃ imp spelling, .importModule imp ∈ mod.program.statements ∧
    imp.path = some spelling ∧ h.resolve spelling (h.dir a) = .ok b

/-- `Host.Imports` between files. -/
def Host.FileImports (h : Host) (k k' : String) : Prop :=
  ∃ a b, h.canonicalKey a = k ∧ h.canonicalKey b = k' ∧ h.Imports a b

/-- The files that can be reached from the entry. -/
def Host.reachable (h : Host) (entry : String) : Set String :=
  {k | ∃ a, h.abs entry = .ok a ∧ Relation.ReflTransGen h.FileImports (h.canonicalKey a) k}

/-- Some file that can be reached from the entry lies on an import cycle. -/
def Host.Cyclic (h : Host) (entry : String) : Prop :=
  ∃ k ∈ h.reachable entry, OnCycle h.FileImports k

/-- The imports among the statements of the file at `path`, with their targets. -/
def Host.resolvedImports (h : Host) (path : String) (statements : List Statement) :
    List ResolvedImport :=
  statements.filterMap fun
    | .other => none
    | .importModule imp => imp.path.bind fun spelling =>
        (h.resolve spelling (h.dir path)).toOption.map (⟨imp.bindsName, spelling, ·⟩)

/-- The module is its file, read and parsed, with every import resolved. -/
def Host.IsLoaded (h : Host) (m : Module) : Prop := ∃ mod, readModule h m.path = .ok mod ∧
    m = { mod with imports := h.resolvedImports m.path mod.program.statements }

/-- The graph holds every file that can be reached once, dependencies first and the entry last. -/
structure Host.InOrder (h : Host) (entry : String) (g : Graph) : Prop where
  nodup : (g.modules.map (Module.key h)).Nodup
  complete : ∀ k, k ∈ g.modules.map (Module.key h) ↔ k ∈ h.reachable entry
  ordered : PostOrdered h.FileImports (g.modules.map (Module.key h))
  loaded : ∀ m ∈ g.modules, h.IsLoaded m
  entry : ∃ front root, g.modules = front ++ [root] ∧ g.entry = some root ∧
    h.abs entry = .ok root.path

/-- The chain names files from the entry on, each importing the next, and its last file is an
earlier one of them. -/
def Host.ClosesCycle (h : Host) (entry : String) (chain : List String) : Prop :=
  ∃ front again back last, chain = (front ++ again :: back ++ [last]).map h.displayPath ∧
    (front ++ again :: back ++ [last]).head? = (h.abs entry).toOption ∧
    List.IsChain h.Imports (front ++ again :: back ++ [last]) ∧
    h.canonicalKey again = h.canonicalKey last

/-- What can be wrong with the file at `a`, and the error that reports it. -/
inductive Host.Defect (h : Host) (a : String) : LoadError → Prop
  | read {reason} (hread : h.readFile a = .error reason) : Defect h a (.read a reason)
  | parse {source messages} (hread : h.readFile a = .ok source)
      (hparse : h.parse source = .error messages) :
      Defect h a (.parse (h.displayPath a)
        (messages.map (ParseMessage.positioned (h.displayPath a))))
  | duplicateNamespace {mod before first second firstPath secondPath}
      (hmod : readModule h a = .ok mod)
      (hbefore : before ++ [.importModule second] <+: mod.program.statements)
      (hfirst : .importModule first ∈ before) (hname : first.bindsName = second.bindsName)
      (hfirstPath : first.path = some firstPath) (hsecondPath : second.path = some secondPath) :
      Defect h a (.duplicateNamespace mod.display second.bindsName firstPath secondPath)
  | resolve {mod imp spelling error} (hmod : readModule h a = .ok mod)
      (himp : .importModule imp ∈ mod.program.statements) (hpath : imp.path = some spelling)
      (hresolve : h.resolve spelling (h.dir a) = .error error) :
      Defect h a (.resolve (decorateResolveError mod.display error))

/-- An error that is no cycle: the entry has no absolute path, or a file reached from it has a
defect. -/
def Host.Blames (h : Host) (entry : String) (e : LoadError) : Prop :=
  (∃ reason, h.abs entry = .error reason ∧ e = .read entry reason) ∨
  ∃ a₀ a, h.abs entry = .ok a₀ ∧ Relation.ReflTransGen h.Imports a₀ a ∧ h.Defect a e

end Mutant.Modules
