import Mutant.Compiler.Equiv.Named
import Mutant.Compiler.Equiv.WalkTree
/-!
# Every compilation keeps slots apart

That each slot belongs to one name, or to the compiler, holds of a new compiler and is kept by the
compilation of every construct, and so of every program and every line of a session.

* `new_named`, `compileProgram_named`: both facts.
-/

namespace Mutant.Compiler

open Mutant.Ast

variable {reg : String → Bool}

/-- Tables that keep slots apart, as a walk. -/
def naming : Walk where
  Ok := SymbolTable.Named
  Rel _ _ _ := True
  Err _ _ _ _ := True

instance : naming.Lawful where
  refl _ := trivial
  trans _ _ := trivial
  err_trans _ _ := trivial
  fail _ := trivial
  resolve name h := ⟨SymbolTable.Named.resolve h name, trivial⟩
  define {_ _ name} _ h := ⟨SymbolTable.Named.define h name, trivial⟩
  internal {_ st kind} hkind hslot h := by
    have hnamed : (st.internal kind).2.Named := SymbolTable.Named.internal h hkind
    unfold SymbolTable.internal at hnamed
    rw [hslot] at hnamed
    exact ⟨hnamed, trivial⟩
  builtin name h := ⟨SymbolTable.Named.referenceBuiltin h name, trivial⟩
  openBlock h := SymbolTable.Named.openBlock h
  closeBlock _ h := ⟨SymbolTable.Named.closeBlock h.1, trivial⟩
  closeBlock_err _ _ _ := trivial
  enter h := SymbolTable.Named.newEnclosed h
  functionName name h := ⟨⟨Table.Named.empty.defineFunctionName name, h⟩, trivial⟩
  leave {_ _ st'} _ h := by
    refine ⟨?_, trivial⟩
    cases st' with
    | root t => exact h.1
    | enclosed t outer => exact h.1.2
  leave_err _ _ _ := trivial

/-! ### Programs -/

/-- The tables of a new compiler, and of one whose builtins have been defined. -/
theorem new_named : SymbolTable.new.Named := ⟨.empty, .empty⟩

theorem defineBuiltin_named {t : Table} (h : (SymbolTable.root t).Named) (idx : Nat)
    (name : String) : ((SymbolTable.root t).defineBuiltin idx name).Named :=
  ⟨h.1.add rfl rfl (Nat.le_refl _) (List.prefix_refl _) (by simp [Allowed]) nofun nofun
    (.inl ⟨"", .empty, (qualify_empty _).symm⟩), h.2⟩

/-- A program, or a line of a session, is compiled to tables that keep slots apart. -/
theorem compileProgram_named {program : Program} {s s' : CompilerState}
    (hs : s.symbolTable.Named) (hrun : compileProgram reg program s = .ok () s') :
    s'.symbolTable.Named := by
  have h := Walk.keeps_compileProgram (W := naming) reg program s hs
  rw [hrun] at h
  exact h.1

theorem compileProgram_named_let :
    ∃ s', compileProgram (fun _ => false) ⟨[.letIn "x" [] (.integer 1)]⟩
      { symbolTable := SymbolTable.new.defineBuiltin 0 "len" } = .ok () s' ∧ s'.symbolTable.Named :=
  .imp (fun _ h => ⟨h, compileProgram_named (defineBuiltin_named new_named 0 "len") h⟩) ⟨_, rfl⟩

end Mutant.Compiler
