import Mutant.Compiler.Equiv.Scoping
/-!
# Which name a slot belongs to

A slot of a table is given out once, to a name of the program or to the compiler itself.  So a symbol
that a name resolves to and one that `internalSlot` hands out are never one variable
(`SymbolTable.Named.index_ne`).
-/

namespace Mutant.Compiler

open Function List

variable {name m m' kind key : String} {module : String → Prop} {x : Symbol} {st : SymbolTable}

/-! ### Keys -/

theorem NulFree.empty : NulFree "" := by simp [NulFree]

theorem SourceName.nulFree (h : SourceName name) : NulFree name := fun c hc =>
  (h c hc).2

/-- What a key that is made of a module and a name can be read as. -/
theorem eq_or_eq_of_qualify {a b : String} (hm : NulFree m) (ha : NulFree a)
    (h : qualify m a = qualify m' b) : b = a ∨ b = qualify m a := by
  by_cases hemp' : m' = ""
  · rw [hemp'] at h
    exact .inr h.symm
  · left
    have hlist := congrArg String.toList h
    rw [qualify_of_ne hemp'] at hlist
    by_cases hemp : m = ""
    · rw [hemp, qualify_empty] at hlist
      exact absurd rfl (ha '\x00' (by rw [hlist]; simp))
    · rw [qualify_of_ne hemp] at hlist
      have hspl := (append_cons_inj_of_notMem (fun hmem => hm _ hmem rfl)
        (fun hmem => ha _ hmem rfl)).mp hlist
      exact (String.toList_inj.mp hspl.2.2).symm

/-- A key tells the module and the name apart. -/
theorem qualify_eq_qualify {a b : String} (hm : NulFree m) (ha : NulFree a) (hb : NulFree b)
    (h : qualify m a = qualify m' b) : a = b := by
  rcases eq_or_eq_of_qualify hm ha h with hba | hba
  · exact hba.symm
  · by_cases hemp : m = ""
    · rw [hemp] at hba
      exact hba.symm
    · refine absurd rfl (hb '\x00' ?_)
      rw [hba, qualify_of_ne hemp]
      simp

theorem nulFree_internal (h : NulFree kind) : NulFree (" " ++ kind) := by
  intro c hc
  rw [String.toList_append] at hc
  rcases mem_append.mp hc with hc | hc
  · rw [show (" " : String).toList = [' '] from rfl, mem_singleton] at hc
    rw [hc]
    decide
  · exact h c hc

theorem SourceName.ne_internal (h : SourceName name) (kind : String) : name ≠ " " ++ kind := by
  rintro rfl
  exact (h ' ' (by simp)).1 rfl

/-- The key a symbol is filed under: its name's, or an internal one when it has no name. -/
def Filed (module : String → Prop) (key : String) (x : Symbol) : Prop :=
  (∃ m, module m ∧ key = qualify m x.name) ∨
    x.name = "" ∧ ∃ m kind, module m ∧ NulFree kind ∧ key = qualify m (" " ++ kind)

/-- Symbols filed under a name of the program and under an internal key do not bear one name. -/
theorem Filed.name_ne {y : Symbol}
    (hx : Filed module (qualify m name) x) (hy : Filed module (qualify m' (" " ++ kind)) y)
    (hm : NulFree m) (hm' : NulFree m') (hkind : NulFree kind) (hname : SourceName name)
    (hne : name ≠ "") : x.name ≠ y.name := by
  intro heq
  have hx : x.name = name ∨ x.name = qualify m name := by
    rcases hx with ⟨m₁, -, hkey⟩ | ⟨-, m₁, kind₁, -, hkind₁, hkey⟩
    · exact eq_or_eq_of_qualify hm hname.nulFree hkey
    · exact absurd (qualify_eq_qualify hm hname.nulFree (nulFree_internal hkind₁) hkey)
        (hname.ne_internal kind₁)
  have hy : y.name = "" ∨ y.name = " " ++ kind ∨ y.name = qualify m' (" " ++ kind) := by
    rcases hy with ⟨m₁, -, hkey⟩ | ⟨hemp, -⟩
    · exact .inr (eq_or_eq_of_qualify hm' (nulFree_internal hkind) hkey)
    · exact .inl hemp
  -- whichever way the two are read, they are the name and the internal key of some modules
  have hdiffer : ∀ m₁ m₂, NulFree m₁ → qualify m₁ name ≠ qualify m₂ (" " ++ kind) :=
    fun m₁ m₂ hm₁ h => hname.ne_internal kind
      (qualify_eq_qualify hm₁ hname.nulFree (nulFree_internal hkind) h)
  have hfull : ∀ m₁, NulFree m₁ → qualify m₁ name ≠ "" := fun m₁ hm₁ h =>
    hne (qualify_eq_qualify hm₁ hname.nulFree .empty (h.trans (qualify_empty "").symm))
  rw [← heq] at hy
  rcases hx with hx | hx <;> rcases hy with hy | hy | hy <;> rw [hx] at hy
  · exact hne hy
  · exact hname.ne_internal kind hy
  · exact hdiffer "" m' .empty hy
  · exact hfull m hm hy
  · exact hdiffer m "" hm hy
  · exact hdiffer m m' hm hy

/-- In the table of a function, a symbol filed under a name of the program bears that name. -/
theorem Filed.name_eq (h : Filed (· = "") name x) (hname : SourceName name) : x.name = name := by
  rcases h with ⟨m, rfl, rfl⟩ | ⟨-, m, kind, rfl, -, hkey⟩
  · rfl
  · exact absurd hkey (hname.ne_internal kind)

/-! ### Tables -/

/-- What a list holds it holds when more is appended to it. -/
theorem getElem?_of_grown {α : Type} {l l' : List α} {i : Nat} {a : α} (h : l[i]? = some a)
    (hgr : l <+: l') : l'[i]? = some a := by
  obtain ⟨more, rfl⟩ := hgr
  rw [getElem?_append_left (List.getElem?_eq_some_iff.mp h).1]
  exact h

/-- A symbol the table's store holds under a key, or that the end of a block puts back under it. -/
def Table.Holds (t : Table) (key : String) (x : Symbol) : Prop := t.store.lookup key = some x ∨
    ∃ frame ∈ t.blocks, ∃ e ∈ frame.undo, e.key = key ∧ e.previous = some x

/-- The symbols a table holds, by the scope its own definitions get. -/
def Allowed (own scope : SymbolScope) : Prop :=
  if own = .globalScope then scope = .globalScope ∨ scope = .builtinScope
  else scope = .localScope ∨ scope = .freeScope ∨ scope = .functionScope

/-- Every slot of the table has been given to one name, or to the compiler, and so has every
capture. -/
structure Table.Named (own : SymbolScope) (module : String → Prop) (t : Table) : Prop where
  scope : ∀ key x, t.Holds key x → Allowed own x.scope
  index_lt : ∀ key x, t.Holds key x → x.scope = own → x.index < t.numDefinitions
  filed : ∀ key x, t.Holds key x → Filed module key x
  unique : ∃ name : Nat → String, ∀ key x, t.Holds key x → x.scope = own → name x.index = x.name
  captured : ∀ key x, t.Holds key x → x.scope = .freeScope →
    ∃ original, t.freeSymbols[x.index]? = some original ∧ original.name = x.name

namespace Table

variable {own : SymbolScope} {module : String → Prop} {t t' : Table}

/-- What a table holds once a symbol is filed in its store. -/
theorem holds_insert {new : Symbol} {k : String} (hsto : t'.store = t.store.insert key new)
    (hbs : t'.blocks = t.blocks) (h : t'.Holds k x) : t.Holds k x ∨ x = new ∧ k = key := by
  unfold Holds at h
  rw [hsto, hbs] at h
  by_cases hk : k = key
  · subst hk
    rw [AList.lookup_insert] at h
    exact h.symm.imp .inr fun h => ⟨(Option.some.inj h).symm, rfl⟩
  · rw [AList.lookup_insert_ne hk] at h
    exact .inl h

/-- A change that files one symbol, which takes the next slot if it takes one. -/
theorem Named.add (h : t.Named own module) {new : Symbol}
    (hsto : t'.store = t.store.insert key new) (hbs : t'.blocks = t.blocks)
    (hnum : t.numDefinitions ≤ t'.numDefinitions) (hfree : t.freeSymbols <+: t'.freeSymbols)
    (hsc : Allowed own new.scope)
    (hnew : new.scope = own → new.index = t.numDefinitions ∧ t.numDefinitions < t'.numDefinitions)
    (hcaptured : new.scope = .freeScope →
      ∃ orig, t'.freeSymbols[new.index]? = some orig ∧ orig.name = new.name)
    (hfiled : Filed module key new) : t'.Named own module where
  scope k x hx := by
    rcases holds_insert hsto hbs hx with hx | ⟨rfl, -⟩
    · exact h.scope k x hx
    · exact hsc
  index_lt k x hx hown := by
    rcases holds_insert hsto hbs hx with hx | ⟨rfl, -⟩
    · exact (h.index_lt k x hx hown).trans_le hnum
    · obtain ⟨hidx, hlt⟩ := hnew hown
      rwa [hidx]
  filed k x hx := by
    rcases holds_insert hsto hbs hx with hx | ⟨rfl, rfl⟩
    · exact h.filed k x hx
    · exact hfiled
  unique := by
    obtain ⟨name, hname⟩ := h.unique
    -- the new slot is named after the new symbol; no older one has it
    refine ⟨update name t.numDefinitions new.name, fun k x hx hown => ?_⟩
    rcases holds_insert hsto hbs hx with hx | ⟨rfl, -⟩
    · rw [update_of_ne (h.index_lt k x hx hown).ne]
      exact hname k x hx hown
    · rw [(hnew hown).1, update_self]
  captured k x hx hfreeScope := by
    rcases holds_insert hsto hbs hx with hx | ⟨rfl, -⟩
    · obtain ⟨orig, hat, hname⟩ := h.captured k x hx hfreeScope
      exact ⟨orig, getElem?_of_grown hat hfree, hname⟩
    · exact hcaptured hfreeScope

/-- A change that brings no symbol. -/
theorem Named.mono (h : t.Named own module) (hnum : t'.numDefinitions = t.numDefinitions)
    (hfree : t'.freeSymbols = t.freeSymbols)
    (hhold : ∀ key x, t'.Holds key x → t.Holds key x) : t'.Named own module where
  scope key x hx := h.scope key x (hhold key x hx)
  index_lt key x hx hown := hnum ▸ h.index_lt key x (hhold key x hx) hown
  filed key x hx := h.filed key x (hhold key x hx)
  unique := by
    obtain ⟨name, hname⟩ := h.unique
    exact ⟨name, fun key x hx => hname key x (hhold key x hx)⟩
  captured key x hx hsc := hfree ▸ h.captured key x (hhold key x hx) hsc

/-- Noting what a declaration shadows adds nothing to what a table holds. -/
theorem holds_noteShadowed {k : String} (h : (t.noteShadowed key).Holds k x) : t.Holds k x := by
  unfold noteShadowed at h
  cases hbs : t.blocks with
  | nil => rwa [hbs] at h
  | cons frame rest =>
    rw [hbs] at h
    rcases h with hlook | ⟨f, hf, e, he, hkey, hprev⟩
    · exact .inl hlook
    · rcases mem_cons.mp hf with rfl | hf
      · -- the new record is of what the store holds
        rcases mem_append.mp he with he | he
        · exact .inr ⟨frame, hbs ▸ mem_cons_self, e, he, hkey, hprev⟩
        · rw [mem_singleton.mp he] at hkey hprev
          subst hkey
          exact .inl hprev
      · exact .inr ⟨f, hbs ▸ mem_cons_of_mem _ hf, e, he, hkey, hprev⟩

/-- What a key holds once an undo log is replayed, it held before or a record of the log says. -/
theorem undoFn_cases (f : String → Option Symbol) (undo : List Shadowed) (key : String) :
    undoFn f undo key = f key ∨ ∃ e ∈ undo, e.key = key ∧ undoFn f undo key = e.previous := by
  induction undo with
  | nil => exact .inl rfl
  | cons e undo ih =>
    show update (undoFn f undo) e.key e.previous key = f key ∨
      ∃ e' ∈ e :: undo, e'.key = key ∧
        update (undoFn f undo) e.key e.previous key = e'.previous
    by_cases hkey : key = e.key
    · subst hkey
      exact .inr ⟨e, mem_cons_self, rfl, update_self ..⟩
    · rw [update_of_ne hkey]
      refine ih.imp_right ?_
      rintro ⟨e', he', hrest⟩
      exact ⟨e', mem_cons_of_mem _ he', hrest⟩

/-- Closing a block uncovers only what its undo log holds. -/
theorem holds_closeBlock (h : t.closeBlock.Holds key x) : t.Holds key x := by
  unfold closeBlock at h
  cases hbs : t.blocks with
  | nil => rwa [hbs] at h
  | cons frame rest =>
    rw [hbs] at h
    rcases h with hlook | ⟨f, hf, hrest⟩
    · have hundo : undoFn (fun k => t.store.lookup k) frame.undo key = some x := by
        rw [← lookup_undoAll]
        exact hlook
      rcases undoFn_cases (fun k => t.store.lookup k) frame.undo key with hsame | ⟨e, he, hkey, heq⟩
      · exact .inl (hsame.symm.trans hundo)
      · exact .inr ⟨frame, hbs ▸ mem_cons_self, e, he, hkey, heq.symm.trans hundo⟩
    · exact .inr ⟨f, hbs ▸ mem_cons_of_mem _ hf, hrest⟩

/-- A table whose store and blocks are the same holds the same. -/
theorem Holds.congr (hsto : t'.store = t.store)
    (hbs : t'.blocks = t.blocks) (h : t'.Holds key x) : t.Holds key x := by
  unfold Holds at h ⊢
  rwa [hsto, hbs] at h

theorem Named.empty : ({} : Table).Named own module where
  scope key x hx := by simp [Holds] at hx
  index_lt key x hx := by simp [Holds] at hx
  filed key x hx := by simp [Holds] at hx
  unique := ⟨fun _ => "", fun key x hx => by simp [Holds] at hx⟩
  captured key x hx := by simp [Holds] at hx

theorem Named.openBlock (h : t.Named own module) : t.openBlock.Named own module := by
  refine Named.mono h rfl rfl ?_
  rintro key x (hlook | ⟨frame, hframe, e, he, hrest⟩)
  · exact .inl hlook
  · rcases mem_cons.mp hframe with rfl | hframe
    · cases he
    · exact .inr ⟨frame, hframe, e, he, hrest⟩

theorem Named.closeBlock (h : t.Named own module) : t.closeBlock.Named own module := by
  refine Named.mono h ?_ ?_ fun key x hx => holds_closeBlock hx
  · unfold Table.closeBlock
    cases t.blocks <;> rfl
  · unfold Table.closeBlock
    cases t.blocks <;> rfl

theorem Named.markCaptured (h : t.Named own module) (idx : Nat) :
    (t.markCaptured idx).Named own module := by
  unfold Table.markCaptured
  split_ifs
  · exact h
  · exact Named.mono h rfl rfl fun key x hx => hx.congr rfl rfl

theorem noteShadowed_numDefinitions (t : Table) (key : String) :
    (t.noteShadowed key).numDefinitions = t.numDefinitions := by
  unfold Table.noteShadowed
  cases t.blocks <;> rfl

theorem noteShadowed_currentModule (t : Table) (key : String) :
    (t.noteShadowed key).currentModule = t.currentModule := by
  unfold Table.noteShadowed
  cases t.blocks <;> rfl

theorem Named.noteShadowed (h : t.Named own module) (key : String) :
    (t.noteShadowed key).Named own module := by
  refine Named.mono h (t.noteShadowed_numDefinitions key) ?_ fun k x hx => holds_noteShadowed hx
  unfold Table.noteShadowed
  cases t.blocks <;> rfl

/-- A symbol of the table's own scope that takes the next slot. -/
theorem Named.allocate (h : t.Named own module) {sym : Symbol}
    (hown : sym.scope = own) (hvar : own = .globalScope ∨ own = .localScope)
    (hidx : sym.index = t.numDefinitions) (hfiled : Filed module key sym) :
    (t.allocate key sym).Named own module := by
  refine h.add rfl rfl (Nat.le_succ _) (prefix_refl _) ?_
    (fun _ => ⟨hidx, Nat.lt_succ_self _⟩) ?_ hfiled
  · rcases hvar with rfl | rfl <;> rw [hown] <;> simp [Allowed]
  · rintro hfree
    rcases hvar with rfl | rfl <;> simp [hown] at hfree

/-- The capture of a symbol of the next table out. -/
theorem Named.defineFree (h : t.Named .localScope (· = "")) (orig : Symbol) :
    (t.defineFree orig).2.Named .localScope (· = "") := by
  refine h.add rfl rfl (Nat.le_refl _) ⟨[orig], rfl⟩ (by simp [Allowed]) nofun
    (fun _ => ⟨orig, ?_, rfl⟩) (.inl ⟨"", rfl, rfl⟩)
  simp [Table.defineFree]

theorem Named.defineFunctionName (h : t.Named .localScope (· = "")) (name : String) :
    (t.defineFunctionName name).Named .localScope (· = "") :=
  h.add rfl rfl (Nat.le_refl _) (prefix_refl _) (by simp [Allowed]) nofun nofun
    (.inl ⟨"", rfl, rfl⟩)

end Table

/-! ### The chain of tables -/

namespace SymbolTable

/-- The tables of a chain give each slot to one name. -/
def Named : SymbolTable → Prop
  | .root t => t.Named .globalScope NulFree ∧ NulFree t.currentModule
  | .enclosed t outer => t.Named .localScope (· = "") ∧ outer.Named

section

variable (h : st.Named)

include h

/-- A change of the innermost table. -/
theorem Named.setTable {t : Table}
    (ht : ∀ own module, st.table.Named own module → t.Named own module)
    (hmod : t.currentModule = st.table.currentModule) : (st.setTable t).Named := by
  cases st with
  | root r => exact ⟨ht _ _ h.1, hmod ▸ h.2⟩
  | enclosed r outer => exact ⟨ht _ _ h.1, h.2⟩

theorem Named.newEnclosed : st.newEnclosed.Named := ⟨.empty, h⟩

theorem Named.openBlock : st.openBlock.Named :=
  h.setTable (fun _ _ ht => ht.openBlock) rfl

theorem Named.closeBlock : st.closeBlock.Named := by
  apply h.setTable
  · exact fun _ _ ht => ht.closeBlock
  · unfold Table.closeBlock
    cases st.table.blocks <;> rfl

theorem Named.markCaptured (idx : Nat) : (st.setTable (st.table.markCaptured idx)).Named := by
  apply h.setTable
  · exact fun _ _ ht => ht.markCaptured idx
  · unfold Table.markCaptured
    split_ifs <;> rfl

/-- The invariant does not see the other parts of the root. -/
theorem Named.modifyRoot {f : Table → Table}
    (hsto : ∀ t, (f t).store = t.store) (hbs : ∀ t, (f t).blocks = t.blocks)
    (hnum : ∀ t, (f t).numDefinitions = t.numDefinitions)
    (hfree : ∀ t, (f t).freeSymbols = t.freeSymbols)
    (hmod : ∀ t, (f t).currentModule = t.currentModule) : (st.modifyRoot f).Named := by
  induction st with
  | root t =>
    refine ⟨h.1.mono (hnum t) (hfree t) fun key x hx => hx.congr (hsto t) (hbs t), ?_⟩
    rw [hmod t]
    exact h.2
  | enclosed t outer ih => exact ⟨h.1, ih h.2⟩

theorem Named.referenceBuiltin (name : String) : (st.referenceBuiltin name).2.Named := by
  unfold SymbolTable.referenceBuiltin
  dsimp only
  split_ifs
  · exact h
  · apply h.modifyRoot <;> exact fun _ => rfl

end

/-- The enclosing tables once a symbol of theirs is captured: a local one has to be boxed. -/
def boxing (original : Symbol) (outer : SymbolTable) : SymbolTable :=
  if original.scope = .localScope then outer.setTable (outer.table.markCaptured original.index)
  else outer

/-- What resolving a name in a function's table does. -/
inductive Resolves (t : Table) (outer : SymbolTable) (name : String) :
    Option Symbol × SymbolTable → Prop
  | found {x : Symbol} (h : t.store.lookup name = some x) :
    Resolves t outer name (some x, .enclosed t outer)
  | absent {outer' : SymbolTable} (h : t.store.lookup name = none)
    (houter : outer.resolve name = (none, outer')) : Resolves t outer name (none, .enclosed t outer')
  | outside {x : Symbol} {outer' : SymbolTable} (h : t.store.lookup name = none)
    (houter : outer.resolve name = (some x, outer'))
    (hscope : x.scope = .globalScope ∨ x.scope = .builtinScope) :
    Resolves t outer name (some x, .enclosed t outer')
  | captured {x : Symbol} {outer' : SymbolTable} (h : t.store.lookup name = none)
    (houter : outer.resolve name = (some x, outer'))
    (hscope : ¬ (x.scope = .globalScope ∨ x.scope = .builtinScope)) :
    Resolves t outer name (some (t.defineFree x).1, .enclosed (t.defineFree x).2 (boxing x outer'))

/-- The four ways a name can resolve in a function. -/
theorem resolves (t : Table) (outer : SymbolTable) (name : String) :
    Resolves t outer name ((SymbolTable.enclosed t outer).resolve name) := by
  unfold SymbolTable.resolve
  cases hlook : t.store.lookup name with
  | some sym => exact .found hlook
  | none =>
    obtain ⟨r, outer', hr⟩ : ∃ r outer', outer.resolve name = (r, outer') := ⟨_, _, rfl⟩
    rw [hr]
    cases r with
    | none => exact .absent hlook hr
    | some orig =>
      dsimp only
      by_cases hsc : orig.scope = .globalScope ∨ orig.scope = .builtinScope
      · rw [if_pos hsc]
        exact .outside hlook hr hsc
      · rw [if_neg hsc]
        exact .captured hlook hr hsc

theorem Named.boxing {outer : SymbolTable} (h : outer.Named) (orig : Symbol) :
    (boxing orig outer).Named := by
  unfold SymbolTable.boxing
  split_ifs
  · exact h.markCaptured orig.index
  · exact h

/-- Resolving a name files the captures under the names they bear. -/
theorem Named.resolve (h : st.Named) (name : String) : (st.resolve name).2.Named := by
  induction st with
  | root t => exact h
  | enclosed t outer ih =>
    have hout' := ih h.2
    have hres := resolves t outer name
    generalize (SymbolTable.enclosed t outer).resolve name = r at hres ⊢
    cases hres with
    | found _ => exact h
    | absent _ hr | outside _ hr _ =>
      rw [hr] at hout'
      exact ⟨h.1, hout'⟩
    | captured _ hr _ =>
      rw [hr] at hout'
      exact ⟨h.1.defineFree _, hout'.boxing _⟩

/-- Declaring a name keeps the invariant. -/
theorem Named.define (h : st.Named) (name : String) : (st.define name).2.Named := by
  cases st with
  | root t =>
    refine ⟨(h.1.noteShadowed _).allocate rfl (.inl rfl) ?_ (.inl ⟨_, h.2, rfl⟩), ?_⟩
    · exact (t.noteShadowed_numDefinitions _).symm
    · show NulFree (t.noteShadowed _).currentModule
      rw [t.noteShadowed_currentModule]
      exact h.2
  | enclosed t outer =>
    refine ⟨(h.1.noteShadowed _).allocate rfl (.inr rfl) ?_ (.inl ⟨"", rfl, rfl⟩), h.2⟩
    exact (t.noteShadowed_numDefinitions _).symm

theorem Named.defineInternal (h : st.Named) (hkind : NulFree kind) :
    (st.defineInternal (" " ++ kind)).2.Named := by
  cases st with
  | root t => exact ⟨h.1.allocate rfl (.inl rfl) rfl (.inr ⟨rfl, _, kind, h.2, hkind, rfl⟩), h.2⟩
  | enclosed t outer =>
    exact ⟨h.1.allocate rfl (.inr rfl) rfl (.inr ⟨rfl, "", kind, rfl, hkind, rfl⟩), h.2⟩

/-! ### Names and internal slots -/

/-- The table of the program holds what a name means in it, under the name alone or that of the
module. -/
theorem holds_of_resolve_root {t : Table} (h : ((root t).resolve name).1 = some x) :
    ∃ m, (m = "" ∨ m = t.currentModule) ∧ t.Holds (qualify m name) x := by
  simp only [SymbolTable.resolve, own] at h
  split_ifs at h
  · split at h
    · exact ⟨_, .inr rfl, .inl (by rw [← h]; assumption)⟩
    · exact ⟨"", .inl rfl, .inl h⟩
  · exact ⟨"", .inl rfl, .inl h⟩

/-- What a name means inside a function, if it is no global and no builtin, bears the name. -/
theorem Named.resolve_name (h : st.Named) (hname : SourceName name) (hx : (st.resolve name).1 = some x)
    (hsc : ¬ (x.scope = .globalScope ∨ x.scope = .builtinScope)) : x.name = name := by
  induction st generalizing x with
  | root t =>
    obtain ⟨m, -, hheld⟩ := holds_of_resolve_root hx
    exact absurd (h.1.scope _ x hheld) hsc
  | enclosed t outer ih =>
    have hres := resolves t outer name
    generalize (SymbolTable.enclosed t outer).resolve name = r at hres hx
    cases hres with
    | found hlook =>
      cases hx
      exact (h.1.filed name _ (.inl hlook)).name_eq hname
    | absent _ _ => cases hx
    | outside _ _ hsc' =>
      cases hx
      exact absurd hsc' hsc
    -- a free symbol has the name of the one it captures
    | captured _ hr hsc' =>
      cases hx
      have horig := ih h.2 (congrArg Prod.fst hr) hsc'
      exact horig

/-- The compiler's own slot for `kind`, and the tables once it is claimed. -/
def internal (st : SymbolTable) (kind : String) : Symbol × SymbolTable :=
  match st.resolveInternal (" " ++ kind) with
  | some symbol => (symbol, st)
  | none => st.defineInternal (" " ++ kind)

theorem Named.internal (h : st.Named) (hkind : NulFree kind) : (st.internal kind).2.Named := by
  unfold SymbolTable.internal
  cases st.resolveInternal (" " ++ kind) with
  | some sym => exact h
  | none => exact h.defineInternal hkind

end SymbolTable

/-- The variables of the program and the compiler's own have different slots, and so have captures. -/
theorem Table.Named.index_ne {own : SymbolScope} {t : Table}
    (h : t.Named own module) {key' : String} {y : Symbol} (hx : t.Holds key x)
    (hy : t.Holds key' y) (hsc : y.scope = x.scope)
    (hvar : x.scope = own ∨ x.scope = .freeScope) (hname : x.name ≠ y.name) :
    x.index ≠ y.index := by
  intro hidx
  rcases hvar with hown | hfree
  · obtain ⟨name, hunique⟩ := h.unique
    have hx := hunique key x hx hown
    have hy := hunique key' y hy (hsc.trans hown)
    rw [← hidx] at hy
    exact hname (hx.symm.trans hy)
  · obtain ⟨orig, hat, hx⟩ := h.captured key x hx hfree
    obtain ⟨orig', hat', hy⟩ := h.captured key' y hy (hsc.trans hfree)
    rw [← hidx, hat] at hat'
    cases hat'
    exact hname (hx.symm.trans hy)

namespace SymbolTable

/-- The compiler's own slot is the next one, or one it has claimed before. -/
theorem internal_cases (st : SymbolTable) (kind : String) :
    st.table.Holds (st.ownKey (" " ++ kind)) (st.internal kind).1 ∨
      (st.internal kind).1 = ⟨"", st.ownScope, st.table.numDefinitions⟩ := by
  unfold SymbolTable.internal
  cases hlook : st.resolveInternal (" " ++ kind) with
  | some sym => exact .inl (.inl hlook)
  | none => exact .inr rfl

/-- A variable that a name resolves to is never the compiler's own. -/
theorem Named.index_ne (h : st.Named)
    (hname : SourceName name) (hne : name ≠ "") (hkind : NulFree kind)
    (hx : (st.resolve name).1 = some x) (hbuiltin : x.scope ≠ .builtinScope)
    (hfun : x.scope ≠ .functionScope) (hsc : ((st.resolve name).2.internal kind).1.scope = x.scope) :
    x.index ≠ ((st.resolve name).2.internal kind).1.index := by
  have hnm := h.resolve name
  cases st with
  | root t =>
    obtain ⟨m, hm, hheld⟩ := holds_of_resolve_root hx
    have hm : NulFree m := hm.elim (· ▸ .empty) (· ▸ h.2)
    have hglob : x.scope = .globalScope := (h.1.scope _ x hheld).resolve_right hbuiltin
    rcases internal_cases (.root t) kind with hint | hint
    · exact h.1.index_ne hheld hint hsc (.inl hglob)
        ((h.1.filed _ x hheld).name_ne (h.1.filed _ _ hint) hm h.2 hkind hname hne)
    · have hlt := h.1.index_lt _ x hheld hglob
      show x.index ≠ ((SymbolTable.root t).internal kind).1.index
      rw [hint]
      exact hlt.ne
  | enclosed t outer =>
    have hres := resolves t outer name
    generalize (SymbolTable.enclosed t outer).resolve name = r at hres hx hsc hnm ⊢
    -- the symbol is one of the innermost table, or a global
    have hcases : ∃ t' outer', r.2 = .enclosed t' outer' ∧
        (x.scope = .globalScope ∨ t'.Holds name x) := by
      cases hres with
      | found hlook => exact ⟨_, _, rfl, .inr (.inl (hlook.trans hx))⟩
      | absent _ _ => cases hx
      | outside _ _ hsc' =>
        cases hx
        exact ⟨_, _, rfl, .inl (hsc'.resolve_right hbuiltin)⟩
      | captured _ hr hsc' =>
        cases hx
        have horig := h.2.resolve_name hname (congrArg Prod.fst hr) hsc'
        refine ⟨_, _, rfl, .inr (.inl ?_)⟩
        rw [← horig]
        exact AList.lookup_insert t.store
    obtain ⟨t', outer', hr, hheld⟩ := hcases
    rw [hr] at hnm hsc ⊢
    rcases internal_cases (.enclosed t' outer') kind with hint | hint
    · have hallowed := hnm.1.scope _ _ hint
      rw [hsc] at hallowed
      rcases hheld with hglob | hheld
      · simp [Allowed, hglob] at hallowed
      · have hvar : x.scope = .localScope ∨ x.scope = .freeScope := by
          simpa [Allowed, hfun] using hallowed
        have hfiled : Filed (· = "") (qualify "" name) x := hnm.1.filed _ x hheld
        have hfiled' : Filed (· = "") (qualify "" (" " ++ kind)) _ := hnm.1.filed _ _ hint
        exact hnm.1.index_ne hheld hint hsc hvar
          (hfiled.name_ne hfiled' .empty .empty hkind hname hne)
    · rw [hint] at hsc ⊢
      have hlocal : x.scope = .localScope := hsc.symm
      rcases hheld with hglob | hheld
      · rw [hglob] at hlocal
        cases hlocal
      · exact (hnm.1.index_lt _ x hheld hlocal).ne

end SymbolTable

end Mutant.Compiler
