import Mutant.Compiler.Equiv.Scoping
import Mutant.Compiler.Equiv.WalkTree
/-!
# What a failed compilation does to the session

Every action of the compiler that succeeds leaves each table with the blocks it had open, and one
that fails leaves a number of blocks that its error's path determines (`stranded`).  Whatever happens,
the meaning a name would have at the top level once the open blocks of the root are closed
(`SymbolTable.settled`) changes only for a name that a top-level `let` declares.

* `SymbolTable.Settles`: both facts, for the operations of the table;
* `recovery`: the walk they make up;
* `compileProgram_failsInside`: a compilation fails at a node of the program, and its error's path is
  what encloses that node;
* `compileProgram_sessionIntact_iff`: when a failed compilation leaves the session intact.
-/

namespace Mutant.Compiler

open List SymbolTable Function Mutant.Ast Mutant.Code

variable {f g : String → Option Symbol} {key : String} {t : Table} {st st' : SymbolTable}
  {names : Set String} {path : List Enclosure}

/-! ### Closing every block -/

/-- Undoing at a key depends only on what the key had. -/
theorem undoFn_congr (h : f key = g key)
    (undo : List Shadowed) : undoFn f undo key = undoFn g undo key := by
  induction undo with
  | nil => exact h
  | cons e undo ih =>
    change update (undoFn f undo) e.key e.previous key =
      update (undoFn g undo) e.key e.previous key
    by_cases hkey : key = e.key
    · rw [hkey, update_self, update_self]
    · rw [update_of_ne hkey, update_of_ne hkey, ih]

/-- The store as a function of its keys, once the blocks are closed, innermost first. -/
def closedFn (f : String → Option Symbol) (blocks : List BlockFrame) : String → Option Symbol :=
  blocks.foldl (fun f frame => undoFn f frame.undo) f

theorem closedFn_congr (h : f key = g key)
    (blocks : List BlockFrame) : closedFn f blocks key = closedFn g blocks key := by
  induction blocks generalizing f g with
  | nil => exact h
  | cons frame blocks ih => exact ih (undoFn_congr h frame.undo)

namespace Table

/-- What a key of the root table's store holds once every block is closed. -/
def closed (t : Table) : String → Option Symbol := closedFn (fun k => t.store.lookup k) t.blocks

theorem closed_openBlock (t : Table) : t.openBlock.closed = t.closed := rfl

theorem closed_closeBlock (t : Table) : t.closeBlock.closed = t.closed := by
  unfold closeBlock closed
  cases hbs : t.blocks with
  | nil => simp [hbs]
  | cons frame rest =>
    change closedFn _ rest = closedFn (undoFn _ frame.undo) rest
    rw [← lookup_undoAll]

/-- A declaration inside a block is undone when the block is closed. -/
theorem closed_define_block (hbs : t.blocks ≠ []) (key : String) (sym : Symbol) :
    ((t.noteShadowed key).allocate key sym).closed = t.closed := by
  unfold closed
  cases hb : t.blocks with
  | nil => exact absurd hb hbs
  | cons frame rest =>
    simp only [noteShadowed, hb, allocate, closedFn, foldl_cons]
    rw [lookup_insert_eq_update, undoFn_concat, update_idem, update_eq_self]

/-- A key that is not written keeps what it holds. -/
theorem closed_allocate_of_ne {k : String} (hk : k ≠ key) (sym : Symbol) :
    (t.allocate key sym).closed k = t.closed k := by
  refine closedFn_congr ?_ t.blocks
  exact AList.lookup_insert_ne hk

/-- A name that is not written means what it meant. -/
theorem ownOf_closed_allocate {m n : String} (hn : SourceName n) (hne : n ≠ key) (sym : Symbol) :
    ownOf m (t.allocate (qualify m key) sym).closed n = ownOf m t.closed n := by
  unfold ownOf
  rw [closed_allocate_of_ne fun h => hne (qualify_inj.mp h)]
  by_cases hm : m = ""
  · simp [hm]
  · rw [closed_allocate_of_ne (qualify_ne_sourceName hm hn).symm]

end Table

/-! ### The operations of the table -/

namespace SymbolTable

/-- How many blocks each table has open, innermost table first. -/
def blockCounts : SymbolTable → List Nat
  | .root t => [t.blocks.length]
  | .enclosed t outer => t.blocks.length :: outer.blockCounts

/-- What a name means at the top level once the open blocks of the root are closed. -/
def settled (st : SymbolTable) (name : String) : Option Symbol :=
  ownOf st.rootTable.currentModule st.rootTable.closed name

/-- The blocks stay, and so does what a name means at the top level, unless the name may be declared
there. -/
structure Settles (names : Set String) (st st' : SymbolTable) : Prop where
  counts : st'.blockCounts = st.blockCounts
  settled : ∀ n, SourceName n → n ∉ names ∨ st.blockCounts ≠ [0] → st'.settled n = st.settled n

variable {names ns' : Set String} {st st' st₁ : SymbolTable}

theorem blockCounts_ne_nil (st : SymbolTable) : st.blockCounts ≠ [] := by
  cases st <;> simp [blockCounts]

theorem Settles.refl (st : SymbolTable) : Settles names st st := ⟨rfl, fun _ _ _ => rfl⟩

theorem Settles.trans (h : Settles names st st₁) (h' : Settles names st₁ st') :
    Settles names st st' where
  counts := h'.counts.trans h.counts
  settled n hn hfree := (h'.settled n hn (h.counts ▸ hfree)).trans (h.settled n hn hfree)

theorem Settles.mono (hns : names ⊆ ns') (h : Settles names st st') :
    Settles ns' st st' where
  counts := h.counts
  settled n hn hfree := h.settled n hn (hfree.imp_left fun hn hmem => hn (hns hmem))

theorem Settles.enclosed {t' : Table} (hbs : t'.blocks.length = t.blocks.length)
    (h : Settles ∅ st st') : Settles names (.enclosed t st) (.enclosed t' st') where
  counts := by rw [blockCounts, blockCounts, hbs, h.counts]
  settled n hn _ := h.settled n hn (.inl (Set.notMem_empty n))

/-- A new innermost table settles when it keeps the blocks, the module and what its names come to.
-/
theorem Settles.setTable (hbs : t.blocks.length = st.table.blocks.length)
    (hmod : t.currentModule = st.table.currentModule)
    (hcl : ∀ r, st = .root r → ∀ n, SourceName n → n ∉ names ∨ r.blocks ≠ [] →
      ownOf r.currentModule t.closed n = ownOf r.currentModule r.closed n) :
    Settles names st (st.setTable t) := by
  cases st with
  | root r =>
    refine ⟨by simp [setTable, blockCounts, hbs, table], fun n hn hfree => ?_⟩
    have := hcl r rfl n hn (by simpa [blockCounts] using hfree)
    change ownOf t.currentModule t.closed n = _
    rwa [hmod]
  | enclosed r outer => exact .enclosed hbs (.refl outer)

/-- A change of the innermost table that writes neither its store nor its blocks. -/
theorem Settles.setTable_same (hbs : t.blocks = st.table.blocks)
    (hmod : t.currentModule = st.table.currentModule) (hsto : t.store = st.table.store) :
    Settles names st (st.setTable t) := by
  refine .setTable (by rw [hbs]) hmod ?_
  rintro r rfl n - -
  unfold Table.closed
  rw [hbs, hsto]
  rfl

/-- A change to another part of the root settles. -/
theorem Settles.modifyRoot {f : Table → Table} (hf : ∀ t, (f t).blocks = t.blocks ∧
    (f t).currentModule = t.currentModule ∧ (f t).store = t.store) (st : SymbolTable) :
    Settles ∅ st (st.modifyRoot f) := by
  induction st with
  | root t =>
    obtain ⟨hbs, hmod, hsto⟩ := hf t
    exact .setTable_same hbs hmod hsto
  | enclosed t outer ih => exact .enclosed rfl ih

/-- Referencing a builtin settles. -/
theorem settles_referenceBuiltin (st : SymbolTable) (name : String) :
    Settles names st (st.referenceBuiltin name).2 := by
  unfold referenceBuiltin
  dsimp only
  split_ifs
  · exact .refl st
  · refine Settles.mono (Set.empty_subset names) (.modifyRoot ?_ st)
    exact fun t => ⟨rfl, rfl, rfl⟩

/-- Resolving a name settles: it may add free symbols and captures, never a name of the root. -/
theorem settles_resolve (st : SymbolTable) (name : String) :
    Settles names st (st.resolve name).2 := by
  refine Settles.mono (Set.empty_subset names) ?_
  induction st with
  | root t => exact .refl _
  | enclosed t outer ih =>
    unfold resolve
    -- a name found further out becomes a free symbol here
    cases t.store.lookup name with
    | some sym => exact .refl _
    | none =>
      generalize outer.resolve name = r at ih ⊢
      obtain ⟨_ | orig, outer'⟩ := r
      · exact .enclosed rfl ih
      · dsimp only
        split_ifs
        · exact .enclosed rfl ih
        · refine .enclosed rfl (ih.trans (.setTable_same ?_ ?_ ?_)) <;>
            (unfold Table.markCaptured; split_ifs <;> rfl)
        · exact .enclosed rfl ih

/-- Defining a name that is among `names` settles. -/
theorem settles_define (st : SymbolTable) {name : String} (hname : name ∈ names) :
    Settles names st (st.define name).2 := by
  refine .setTable ?_ ?_ ?_
  · unfold Table.noteShadowed
    cases hb : st.table.blocks <;> simp [Table.allocate, hb]
  · unfold Table.noteShadowed
    cases hb : st.table.blocks <;> rfl
  · rintro r rfl n hn hfree
    -- in a block the old meaning is noted, so closing it undoes the new one
    by_cases hbs : r.blocks = []
    · have hne : n ≠ name := by
        rintro rfl
        simp [hname, hbs] at hfree
      have hnote : r.noteShadowed (qualify r.currentModule name) = r := by
        unfold Table.noteShadowed
        rw [hbs]
      dsimp only [table, ownKey]
      rw [hnote]
      exact Table.ownOf_closed_allocate hn hne _
    · exact congrArg (ownOf r.currentModule · n) (Table.closed_define_block hbs _ _)

theorem settles_defineInternal (st : SymbolTable) (hkey : ¬ SourceName key) :
    Settles names st (st.defineInternal key).2 := by
  refine .setTable rfl rfl ?_
  rintro r rfl n hn -
  have hne : n ≠ key := fun h => hkey (h ▸ hn)
  exact Table.ownOf_closed_allocate hn hne _

end SymbolTable

/-! ### The walk -/

/-- The blocks open in each table after an error under `path`, outermost enclosure first, when `counts`
were open before: an enclosing block is closed on the way out, in whichever table the error left the
compiler with, and an enclosing function's table is not left. -/
def stranded : (path : List Enclosure) → (counts : List Nat) → List Nat
  | [], counts => counts
  | .block :: path, counts => (stranded path (counts.modifyHead (· + 1))).modifyHead (· - 1)
  | .function :: path, counts => stranded path (0 :: counts)

/-- What a failed action does to the tables. -/
structure Strands (names : Set String) (st : SymbolTable) (path : List Enclosure)
    (st' : SymbolTable) : Prop where
  counts : st'.blockCounts = stranded path.reverse st.blockCounts
  settled : ∀ n, SourceName n → n ∉ names ∨ st.blockCounts ≠ [0] → st'.settled n = st.settled n

/-- Blocks and top-level names, as a walk. -/
def recovery : Walk where
  Ok _ := True
  Rel := SymbolTable.Settles
  Err reach := Strands reach.names

theorem not_sourceName_internal (kind : String) : ¬ SourceName (" " ++ kind) := by
  intro h
  exact (h ' ' (by simp)).1 rfl

/-! ### Blocks -/

theorem SymbolTable.settled_setTable
    (hmod : t.currentModule = st.table.currentModule) (hcl : t.closed = st.table.closed)
    (n : String) : (st.setTable t).settled n = st.settled n := by
  cases st with
  | root r =>
    change ownOf t.currentModule t.closed n = _
    rw [hmod, hcl]
    rfl
  | enclosed r outer => rfl

section

variable (st : SymbolTable)

theorem SymbolTable.blockCounts_setTable (t : Table) :
    (st.setTable t).blockCounts = st.blockCounts.modifyHead fun _ => t.blocks.length := by
  cases st <;> rfl

theorem SymbolTable.modifyHead_blockCounts (f : Nat → Nat) :
    st.blockCounts.modifyHead f = st.blockCounts.modifyHead fun _ => f st.table.blocks.length := by
  cases st <;> rfl

theorem SymbolTable.blockCounts_openBlock :
    st.openBlock.blockCounts = st.blockCounts.modifyHead (· + 1) := by
  rw [modifyHead_blockCounts]
  exact st.blockCounts_setTable _

theorem SymbolTable.blockCounts_closeBlock :
    st.closeBlock.blockCounts = st.blockCounts.modifyHead (· - 1) := by
  rw [modifyHead_blockCounts, closeBlock, blockCounts_setTable]
  congr 1
  funext _
  unfold Table.closeBlock
  cases hb : st.table.blocks <;> simp [hb]

theorem SymbolTable.settled_openBlock (n : String) : st.openBlock.settled n = st.settled n :=
  settled_setTable (t := st.table.openBlock) rfl st.table.closed_openBlock n

theorem SymbolTable.settled_closeBlock (n : String) : st.closeBlock.settled n = st.settled n := by
  refine settled_setTable ?_ st.table.closed_closeBlock n
  unfold Table.closeBlock
  cases st.table.blocks <;> rfl

/-- A table with a block open is not a root without one. -/
theorem SymbolTable.blockCounts_openBlock_ne : st.openBlock.blockCounts ≠ [0] := by
  rw [blockCounts_openBlock]
  cases st <;> simp [blockCounts]

end

theorem recovery_closeBlock_err (h : Strands Set.univ st.openBlock path st') :
    Strands names st (path ++ [.block]) st'.closeBlock := by
  refine ⟨?_, fun n hn _ => ?_⟩
  · rw [blockCounts_closeBlock, h.counts, reverse_append, blockCounts_openBlock]
    rfl
  · rw [settled_closeBlock, h.settled n hn (.inr st.blockCounts_openBlock_ne)]
    exact st.settled_openBlock n

/-- What succeeds strands no block, so closing its block takes the count back to what it was. -/
theorem recovery_closeBlock (h : SymbolTable.Settles Set.univ st.openBlock st') :
    SymbolTable.Settles names st st'.closeBlock := by
  have hstrands : Strands names st ([] ++ [.block]) st'.closeBlock :=
    recovery_closeBlock_err ⟨h.counts, h.settled⟩
  refine ⟨hstrands.counts.trans ?_, hstrands.settled⟩
  cases st <;> simp [stranded, blockCounts]

/-! ### Functions -/

/-- The tables in a function are not those of a root without a block. -/
theorem SymbolTable.blockCounts_newEnclosed_ne (st : SymbolTable) :
    st.newEnclosed.blockCounts ≠ [0] := fun h =>
  st.blockCounts_ne_nil (cons.inj h).2

/-- Leaving a function settles the tables around it. -/
theorem recovery_leave (h : SymbolTable.Settles Set.univ st.newEnclosed st') :
    SymbolTable.Settles names st (st'.outer?.getD st') := by
  have hcounts : st'.blockCounts = 0 :: st.blockCounts := h.counts
  have hsettled : ∀ n, SourceName n → st'.settled n = st.settled n := fun n hn =>
    h.settled n hn (.inr st.blockCounts_newEnclosed_ne)
  cases st' with
  | root t => exact absurd (cons.inj hcounts).2.symm st.blockCounts_ne_nil
  | enclosed t outer => exact ⟨(cons.inj hcounts).2, fun n hn _ => hsettled n hn⟩

theorem recovery_leave_err
    (h : Strands Set.univ st.newEnclosed path st') : Strands names st (path ++ [.function]) st' := by
  refine ⟨?_, fun n hn _ => h.settled n hn (.inr st.blockCounts_newEnclosed_ne)⟩
  rw [h.counts, reverse_append]
  rfl

instance : recovery.Lawful where
  refl _ := .refl _
  trans h h' := h.trans h'
  err_trans h h' := ⟨h.counts ▸ h'.counts, fun n hn hfree =>
    (h'.settled n hn (h.counts ▸ hfree)).trans (h.settled n hn hfree)⟩
  fail _ := ⟨rfl, fun _ _ _ => rfl⟩
  resolve {_ st} name _ := ⟨trivial, st.settles_resolve name⟩
  define {_ st _} hname _ := ⟨trivial, st.settles_define hname⟩
  internal {_ st kind} _ _ _ := ⟨trivial, st.settles_defineInternal (not_sourceName_internal kind)⟩
  builtin {_ st} name _ := ⟨trivial, st.settles_referenceBuiltin name⟩
  openBlock _ := trivial
  closeBlock _ h := ⟨trivial, recovery_closeBlock h.2⟩
  closeBlock_err hin _ h := recovery_closeBlock_err (hin.names ▸ h)
  enter _ := trivial
  functionName {st} _ _ := ⟨trivial, .enclosed rfl (.refl st)⟩
  leave _ h := ⟨trivial, recovery_leave h.2⟩
  leave_err hin _ h := recovery_leave_err (hin.names ▸ h)

/-! ### Where a compilation fails -/

/-- That an action fails only where it may, as a walk. -/
def placing : Walk where
  Ok _ := True
  Rel _ _ _ := True
  Err reach _ path _ := path ∈ reach.places

instance : placing.Lawful where
  refl _ := trivial
  trans _ _ := trivial
  err_trans _ h := h
  fail {reach _} _ := reach.here
  resolve _ _ := ⟨trivial, trivial⟩
  define _ _ := ⟨trivial, trivial⟩
  internal _ _ _ := ⟨trivial, trivial⟩
  builtin _ _ := ⟨trivial, trivial⟩
  openBlock _ := trivial
  closeBlock _ _ := ⟨trivial, trivial⟩
  closeBlock_err hin _ h := hin.places (mem_map_of_mem h)
  enter _ := trivial
  functionName _ _ := ⟨trivial, trivial⟩
  leave _ _ := ⟨trivial, trivial⟩
  leave_err hin _ h := hin.places (mem_map_of_mem h)

/-! ### Programs -/

theorem modifyHead_append {f : Nat → Nat} {l rest : List Nat} (hl : l ≠ []) :
    (l ++ rest).modifyHead f = l.modifyHead f ++ rest := by
  cases l with
  | nil => exact absurd rfl hl
  | cons a l => rfl

theorem stranded_ne_nil {counts : List Nat} (h : counts ≠ []) : stranded path counts ≠ [] := by
  fun_induction stranded path counts with
  | case1 => exact h
  | case2 _ _ ih => simpa [h] using ih
  | case3 _ _ ih => exact ih (by simp)

/-- The tables around the ones the path starts in are not reached. -/
theorem stranded_append {counts : List Nat} (h : counts ≠ []) (rest : List Nat) :
    stranded path (counts ++ rest) = stranded path counts ++ rest := by
  fun_induction stranded path counts with
  | case1 => rfl
  | case2 path counts ih =>
    have hne : counts.modifyHead (· + 1) ≠ [] := mt modifyHead_eq_nil_iff.mp h
    rw [stranded, modifyHead_append h, ih hne, modifyHead_append (stranded_ne_nil hne)]
  | case3 _ _ ih => exact ih (by simp)

/-- A failure outside every function leaves the blocks as they were. -/
theorem stranded_of_notMem (h : .function ∉ path) (n : Nat) : stranded path [n] = [n] := by
  induction path generalizing n with
  | nil => rfl
  | cons enclosure path ih =>
    obtain ⟨hne, hmem⟩ := ne_and_not_mem_of_not_mem_cons h
    cases enclosure with
    | block =>
      change (stranded path [n + 1]).modifyHead _ = _
      rw [ih hmem]
      rfl
    | function => exact absurd rfl hne

/-- Inside a function the blocks of the root that were entered before it stay open. -/
theorem stranded_of_mem (h : .function ∈ path) (n : Nat) :
    ∃ l m, l ≠ [] ∧ stranded path [n] = l ++ [m] ∧ n ≤ m ∧ (path.head? = some .block ↔ n < m) := by
  induction path generalizing n with
  | nil => simp at h
  | cons enclosure path ih =>
    cases enclosure with
    | block =>
      obtain ⟨l, m, hl, heq, hle, -⟩ := ih (by simpa using h) (n + 1)
      refine ⟨l.modifyHead (· - 1), m, mt modifyHead_eq_nil_iff.mp hl, ?_, by omega, by simp; omega⟩
      change (stranded path [n + 1]).modifyHead _ = _
      rw [heq, modifyHead_append hl]
    | function =>
      have hne : [0] ≠ [] := by simp
      exact ⟨_, n, stranded_ne_nil hne, stranded_append hne [n], le_rfl, by simp⟩

/-- The blocks the root is left with. -/
theorem SymbolTable.getLast?_blockCounts (st : SymbolTable) :
    st.blockCounts.getLast? = some st.rootTable.blocks.length := by
  induction st with
  | root t => rfl
  | enclosed t outer ih =>
    rw [blockCounts, getLast?_cons_of_ne_nil outer.blockCounts_ne_nil, ih]
    rfl

/-- The root keeps an open block exactly when the failure is in a function in a block. -/
theorem stranded_root_iff (e : Failure) :
    (stranded e.path.reverse [0]).getLast? = some 0 ↔ ¬ e.InFunctionInBlock := by
  unfold Failure.InFunctionInBlock
  by_cases hmem : .function ∈ e.path
  · obtain ⟨l, m, hl, heq, -, hhead⟩ := stranded_of_mem (mem_reverse.mpr hmem) 0
    rw [heq, getLast?_concat, ← head?_reverse, hhead]
    simp [hmem]
  · rw [stranded_of_notMem (fun h => hmem (mem_reverse.mp h))]
    simp [hmem]

section

variable {registry : String → Bool} {program : Program} {s s' : CompilerState} {t : Table}
  {e : Failure}

/-- A compilation fails at a node of the program: its error's path is what encloses that node. -/
theorem compileProgram_failsInside (hrun : compileProgram registry program s = .error e s') :
    e.path ∈ stmtsPlaces program.statements := by
  have h := Walk.keeps_compileProgram (W := placing) registry program s trivial
  rw [hrun] at h
  exact h

/-- A compilation that is refused leaves the session intact exactly when the failing node does not lie
in a function literal that lies in a block. -/
theorem compileProgram_sessionIntact_iff (hs : s.symbolTable = .root t) (hblocks : t.blocks = [])
    (hrun : compileProgram registry program s = .error e s') :
    SessionIntact program t s'.symbolTable.rootTable ↔ ¬ e.InFunctionInBlock := by
  have h := Walk.keeps_compileProgram (W := recovery) registry program s trivial
  rw [hrun] at h
  obtain ⟨hcounts, hsettled⟩ := h
  -- the blocks of the root that stay open are the ones the path strands
  have hcounts₀ : s.symbolTable.blockCounts = [0] := by
    rw [hs]
    simp [blockCounts, hblocks]
  have hroot := s'.symbolTable.getLast?_blockCounts
  rw [hcounts, hcounts₀] at hroot
  rw [← stranded_root_iff, hroot, Option.some.injEq, length_eq_zero_iff]
  refine ⟨fun h => h.1, fun hclosed => ⟨hclosed, fun name hname htop => ?_⟩⟩
  have hsame := hsettled name hname (.inl htop)
  rw [hs] at hsame
  -- at the top level a name resolves to its settled meaning
  have hown : ∀ r : Table, r.blocks = [] →
      ((root r).resolve name).1 = ownOf r.currentModule r.closed name := by
    intro r hr
    change (root r).own name = _
    rw [own_root, Table.closed, hr]
    rfl
  rw [hown _ hclosed, hown _ hblocks]
  exact hsame

/-- The error and the state of a run that failed. -/
def failed (m : CompileM Unit) (s : CompilerState) : Option (Failure × CompilerState) :=
  match m s with
  | .ok _ _ => none
  | .error e s' => some (e, s')

theorem exists_error_of_failed {m : CompileM Unit} {p : Failure → CompilerState → Bool}
    (h : (failed m s).any (fun r => p r.1 r.2) = true) : ∃ e s', m s = .error e s' ∧ p e s' = true := by
  unfold failed at h
  split at h
  · cases h
  · exact ⟨_, _, ‹_›, h⟩

/-- `if (true) { let x = 1; undefinedName; }`: the failing node lies in a block and in no function. -/
def failingBlock : Program := ⟨[.expression (.ifThen (.boolean true)
  [.letIn "x" [] (.integer 1), .expression (.ident "undefinedName")] none)]⟩

theorem failingBlock_sessionIntact :
    ∃ e s', compileProgram (fun _ => false) failingBlock {} = .error e s' ∧ ¬ e.error.IsPanic ∧
      ¬ e.InFunctionInBlock ∧ SessionIntact failingBlock {} s'.symbolTable.rootTable := by
  obtain ⟨e, s', hrun, hp⟩ := exists_error_of_failed
    (m := compileProgram (fun _ => false) failingBlock) (s := {})
    (p := fun e _ => decide (¬ e.error.IsPanic ∧ ¬ e.InFunctionInBlock)) (by decide +kernel)
  obtain ⟨hpanic, hpath⟩ := of_decide_eq_true hp
  exact ⟨e, s', hrun, hpanic, hpath,
    (compileProgram_sessionIntact_iff rfl rfl hrun).mpr hpath⟩

/-- `if (true) { let x = 1; let f = fn() { undefinedName; }; }`: the function's table is the one the
compiler is left with, so the block of the `if` stays open in the root and `x` stays declared. -/
def failingFunction : Program := ⟨[.expression (.ifThen (.boolean true) [.letIn "x" [] (.integer 1),
    .letIn "f" [] (.function "f" [] [.expression (.ident "undefinedName")])] none)]⟩

theorem failingFunction_not_sessionIntact :
    "x" ∉ topLevelNames failingFunction ∧ ((SymbolTable.root {}).resolve "x").1 = none ∧
      ∃ e s', compileProgram (fun _ => false) failingFunction {} = .error e s' ∧
        ¬ e.error.IsPanic ∧ s'.symbolTable.rootTable.blocks.length = 1 ∧
        ((SymbolTable.root s'.symbolTable.rootTable).resolve "x").1 = some ⟨"x", .globalScope, 0⟩ ∧
        ¬ SessionIntact failingFunction {} s'.symbolTable.rootTable := by
  refine ⟨by decide +kernel, by decide +kernel, ?_⟩
  obtain ⟨e, s', hrun, hp⟩ := exists_error_of_failed
    (m := compileProgram (fun _ => false) failingFunction) (s := {})
    (p := fun e s' => decide (¬ e.error.IsPanic ∧ s'.symbolTable.rootTable.blocks.length = 1 ∧
      ((root s'.symbolTable.rootTable).resolve "x").1 = some ⟨"x", .globalScope, 0⟩))
    (by decide +kernel)
  obtain ⟨hpanic, hblocks, hx⟩ := of_decide_eq_true hp
  refine ⟨e, s', hrun, hpanic, hblocks, hx, fun h => ?_⟩
  rw [h.1] at hblocks
  cases hblocks

end

end Mutant.Compiler
