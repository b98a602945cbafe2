import Mutant.Compiler.Equiv.Named
/-!
# Names that have been resolved

Resolving a name changes the tables the first time, when it records captures, and never again: the
name is fixed.  A fixed name stays fixed, with the same meaning, while other names are resolved, and
so does a builtin that has been interned (`SymbolTable.Steady`).

* `SymbolTable.Named.fixed`: a name that has been resolved is fixed;
* `SymbolTable.Named.steady_resolve`, `SymbolTable.steady_referenceBuiltin`: what is fixed stays so.
-/

namespace Mutant.Compiler.SymbolTable

variable {name : String} {r : Option Symbol} {st : SymbolTable}

/-! ### Fixed names -/

theorem defineFree_ne (t : Table) (orig : Symbol) : (t.defineFree orig).2 ≠ t := by
  intro h
  have hlen := congrArg (fun t : Table => t.freeSymbols.length) h
  simp [Table.defineFree] at hlen

/-- A name is fixed in a function's table when the table holds it, or when it is fixed in the next
table out and needs no capture. -/
theorem fixed_enclosed {t : Table} {outer : SymbolTable} :
    (SymbolTable.enclosed t outer).resolve name = (r, .enclosed t outer) ↔
      (∃ x, r = some x ∧ t.store.lookup name = some x) ∨
      t.store.lookup name = none ∧ outer.resolve name = (r, outer) ∧
        ∀ x, r = some x → x.scope = .globalScope ∨ x.scope = .builtinScope := by
  have hres := resolves t outer name
  generalize (SymbolTable.enclosed t outer).resolve name = answer at hres
  cases hres with
  | found h =>
    simp only [Prod.mk.injEq, and_true, h, reduceCtorEq, false_and, or_false]
    constructor
    · exact fun hr => ⟨_, hr.symm, rfl⟩
    · rintro ⟨_, rfl, hx⟩
      exact hx
  | absent h hout' =>
    simp only [Prod.mk.injEq, SymbolTable.enclosed.injEq, true_and, h, reduceCtorEq, and_false,
      exists_false, false_or, hout']
    constructor
    · rintro ⟨rfl, rfl⟩
      exact ⟨⟨rfl, rfl⟩, nofun⟩
    · exact fun hr => hr.1
  | outside h hout' hsc =>
    simp only [Prod.mk.injEq, SymbolTable.enclosed.injEq, true_and, h, reduceCtorEq, and_false,
      exists_false, false_or, hout']
    constructor
    · rintro ⟨rfl, rfl⟩
      refine ⟨⟨rfl, rfl⟩, ?_⟩
      rintro _ hx
      cases hx
      exact hsc
    · exact fun hr => hr.1
  -- a capture adds a free symbol, so the table is not the same
  | captured h hout' hsc =>
    refine iff_of_false (fun heq => ?_) ?_
    · exact defineFree_ne t _ (SymbolTable.enclosed.inj (Prod.mk.inj heq).2).1
    · rintro (⟨_, _, hx⟩ | ⟨-, hr, hr'⟩)
      · rw [h] at hx
        cases hx
      · rw [hout'] at hr
        exact hsc (hr' _ (Prod.mk.inj hr).1.symm)

/-- A fixed name does not depend on what a table has captured or boxed. -/
theorem fixed_setTable {t : Table}
    (hsto : t.store = st.table.store) (hmod : t.currentModule = st.table.currentModule)
    (h : st.resolve name = (r, st)) : (st.setTable t).resolve name = (r, st.setTable t) := by
  cases st with
  | root u =>
    have hown : own (.root u) name = r := (Prod.mk.inj h).1
    have hsame : own (.root t) name = own (.root u) name := by
      cases t
      cases u
      cases hsto
      cases hmod
      rfl
    show (own (.root t) name, _) = _
    rw [hsame, hown]
    rfl
  | enclosed u outer =>
    show (SymbolTable.enclosed t outer).resolve name = (r, .enclosed t outer)
    rw [fixed_enclosed] at h ⊢
    rw [show t.store = u.store from hsto]
    exact h

/-- Boxing a local that is captured fixes no name anew. -/
theorem fixed_boxing {orig : Symbol} (h : st.resolve name = (r, st)) :
    (boxing orig st).resolve name = (r, boxing orig st) := by
  unfold boxing
  split_ifs
  · apply fixed_setTable _ _ h
    · unfold Table.markCaptured
      split_ifs <;> rfl
    · unfold Table.markCaptured
      split_ifs <;> rfl
  · exact h

theorem fixed_modifyRoot {f : Table → Table}
    (hsto : ∀ t, (f t).store = t.store) (hmod : ∀ t, (f t).currentModule = t.currentModule)
    (h : st.resolve name = (r, st)) : (st.modifyRoot f).resolve name = (r, st.modifyRoot f) := by
  induction st with
  | root t => exact fixed_setTable (hsto t) (hmod t) h
  | enclosed t outer ih =>
    show (SymbolTable.enclosed t (outer.modifyRoot f)).resolve name = (r, .enclosed t _)
    rw [fixed_enclosed] at h ⊢
    exact h.imp_right fun hout => ⟨hout.1, ih hout.2.1, hout.2.2⟩

/-- A name is fixed once it has been resolved. -/
theorem Named.fixed (h : st.Named) (hname : SourceName name) :
    (st.resolve name).2.resolve name = ((st.resolve name).1, (st.resolve name).2) := by
  induction st with
  | root t => rfl
  | enclosed t outer ih =>
    have hout' := ih h.2
    have hres := resolves t outer name
    generalize (SymbolTable.enclosed t outer).resolve name = answer at hres ⊢
    cases hres with
    | found hlook => exact fixed_enclosed.mpr (.inl ⟨_, rfl, hlook⟩)
    | absent hlook hr =>
      rw [hr] at hout'
      exact fixed_enclosed.mpr (.inr ⟨hlook, hout', nofun⟩)
    | outside hlook hr hsc =>
      rw [hr] at hout'
      refine fixed_enclosed.mpr (.inr ⟨hlook, hout', ?_⟩)
      rintro _ hx
      cases hx
      exact hsc
    -- the free symbol is filed under the name, so it is found next time
    | captured hlook hr hsc =>
      have horig := h.2.resolve_name hname (congrArg Prod.fst hr) hsc
      refine fixed_enclosed.mpr (.inl ⟨_, rfl, ?_⟩)
      rw [← horig]
      exact AList.lookup_insert t.store

/-- A fixed name stays fixed while another one is resolved. -/
theorem Named.fixed_resolve (h : st.Named) {other : String}
    (hoth : SourceName other) (hfix : st.resolve name = (r, st)) :
    (st.resolve other).2.resolve name = (r, (st.resolve other).2) := by
  induction st with
  | root t => exact hfix
  | enclosed t outer ih =>
    have hres := resolves t outer other
    generalize (SymbolTable.enclosed t outer).resolve other = answer at hres ⊢
    cases hres with
    | found hlook => exact hfix
    | absent _ hr | outside _ hr _ =>
      rw [fixed_enclosed] at hfix ⊢
      refine hfix.imp_right fun hout => ⟨hout.1, ?_, hout.2.2⟩
      have houter := ih h.2 hout.2.1
      rwa [hr] at houter
    | captured hlook hr hsc =>
      have horig := h.2.resolve_name hoth (congrArg Prod.fst hr) hsc
      -- a fixed name is not one that this resolution captures
      have hne : name ≠ other := by
        rintro rfl
        rcases fixed_enclosed.mp hfix with ⟨_, _, hx⟩ | ⟨-, hout, hout'⟩
        · rw [hlook] at hx
          cases hx
        · rw [hr] at hout
          exact hsc (hout' _ (Prod.mk.inj hout).1.symm)
      have hkeep : (t.defineFree _).2.store.lookup name = t.store.lookup name :=
        AList.lookup_insert_ne (horig ▸ hne)
      rw [fixed_enclosed] at hfix ⊢
      rw [hkeep]
      refine hfix.imp_right fun hout => ⟨hout.1, ?_, hout.2.2⟩
      have houter := ih h.2 hout.2.1
      rw [hr] at houter
      exact fixed_boxing houter

/-! ### What resolving leaves in the root table -/

/-- A root table with the same names, modules and interned builtins. -/
structure SameRoot (t t' : Table) : Prop where
  store : t'.store = t.store
  builtinRefs : t'.builtinRefs = t.builtinRefs
  currentModule : t'.currentModule = t.currentModule
  moduleNamespaces : t'.moduleNamespaces = t.moduleNamespaces

theorem sameRoot_markCaptured (t : Table) (idx : Nat) : SameRoot t (t.markCaptured idx) := by
  unfold Table.markCaptured
  split_ifs <;> exact ⟨rfl, rfl, rfl, rfl⟩

theorem sameRoot_boxing (orig : Symbol) (st : SymbolTable) :
    SameRoot st.rootTable (boxing orig st).rootTable := by
  unfold boxing
  split_ifs
  · cases st with
    | root t => exact sameRoot_markCaptured t orig.index
    | enclosed t outer => exact ⟨rfl, rfl, rfl, rfl⟩
  · exact ⟨rfl, rfl, rfl, rfl⟩

theorem SameRoot.trans {t t₁ t' : Table} (h : SameRoot t t₁) (h' : SameRoot t₁ t') : SameRoot t t' :=
  ⟨h'.store.trans h.store, h'.builtinRefs.trans h.builtinRefs,
    h'.currentModule.trans h.currentModule, h'.moduleNamespaces.trans h.moduleNamespaces⟩

/-- Resolving a name leaves what the root knows of modules and builtins. -/
theorem sameRoot_resolve (st : SymbolTable) (name : String) :
    SameRoot st.rootTable (st.resolve name).2.rootTable := by
  induction st with
  | root t => exact ⟨rfl, rfl, rfl, rfl⟩
  | enclosed t outer ih =>
    have hres := resolves t outer name
    generalize (SymbolTable.enclosed t outer).resolve name = answer at hres ⊢
    cases hres with
    | found _ => exact ⟨rfl, rfl, rfl, rfl⟩
    | absent _ hr | outside _ hr _ =>
      rw [hr] at ih
      exact ih
    | captured _ hr _ =>
      rw [hr] at ih
      exact ih.trans (sameRoot_boxing _ _)

theorem rootTable_modifyRoot (f : Table → Table) (st : SymbolTable) :
    (st.modifyRoot f).rootTable = f st.rootTable := by
  induction st with
  | root t => rfl
  | enclosed t outer ih => exact ih

/-! ### Steady tables -/

/-- What is fixed in the first table, and what is interned there, means the same in the second. -/
structure Steady (st st' : SymbolTable) : Prop where
  fixed : ∀ name r, st.resolve name = (r, st) → st'.resolve name = (r, st')
  interned : ∀ name k, st.referenceBuiltin name = (k, st) → st'.referenceBuiltin name = (k, st')
  resolveIn : ∀ key name, st'.resolveIn key name = st.resolveIn key name
  lookupNamespace : ∀ ns, st'.lookupNamespace ns = st.lookupNamespace ns

theorem Steady.refl (st : SymbolTable) : st.Steady st :=
  ⟨fun _ _ h => h, fun _ _ h => h, fun _ _ => rfl, fun _ => rfl⟩

theorem Steady.trans {st₁ st' : SymbolTable} (h : st.Steady st₁) (h' : st₁.Steady st') :
    st.Steady st' where
  fixed name r hr := h'.fixed name r (h.fixed name r hr)
  interned name k hk := h'.interned name k (h.interned name k hk)
  resolveIn key name := (h'.resolveIn key name).trans (h.resolveIn key name)
  lookupNamespace ns := (h'.lookupNamespace ns).trans (h.lookupNamespace ns)

/-- A builtin is interned when the root table lists it. -/
theorem referenceBuiltin_eq_self_iff {k : Nat} : st.referenceBuiltin name = (k, st) ↔
      st.rootTable.builtinRefs.idxOf name < st.rootTable.builtinRefs.length ∧
        st.rootTable.builtinRefs.idxOf name = k := by
  unfold referenceBuiltin
  dsimp only
  split_ifs with hlt
  · simp [hlt]
  · refine iff_of_false (fun h => ?_) (fun h => hlt h.1)
    -- the list of names would be one longer than it is
    have hlen := congrArg (fun st : SymbolTable => st.rootTable.builtinRefs.length)
      (Prod.mk.inj h).2
    simp [rootTable_modifyRoot] at hlen

/-- Resolving a name of the source unsettles nothing. -/
theorem Named.steady_resolve (h : st.Named)
    (hname : SourceName name) : st.Steady (st.resolve name).2 where
  fixed other r hr := h.fixed_resolve hname hr
  interned other k hk := by
    rw [referenceBuiltin_eq_self_iff] at hk ⊢
    rwa [(sameRoot_resolve st name).builtinRefs]
  resolveIn key other := by
    unfold SymbolTable.resolveIn
    rw [(sameRoot_resolve st name).store]
  lookupNamespace ns := by
    unfold SymbolTable.lookupNamespace
    rw [(sameRoot_resolve st name).moduleNamespaces, (sameRoot_resolve st name).currentModule]

/-- A builtin that was referenced is interned. -/
theorem interned_referenceBuiltin (st : SymbolTable) (name : String) :
    (st.referenceBuiltin name).2.referenceBuiltin name =
      ((st.referenceBuiltin name).1, (st.referenceBuiltin name).2) := by
  rw [referenceBuiltin_eq_self_iff]
  unfold referenceBuiltin
  dsimp only
  split_ifs with hlt
  · exact ⟨hlt, rfl⟩
  · have hmem : name ∉ st.rootTable.builtinRefs := fun hmem => hlt (List.idxOf_lt_length_of_mem hmem)
    simp [rootTable_modifyRoot, List.idxOf_append_of_notMem hmem]

/-- Referencing a builtin unsettles nothing: a new one is put at the end. -/
theorem steady_referenceBuiltin (st : SymbolTable) (name : String) :
    st.Steady (st.referenceBuiltin name).2 := by
  unfold referenceBuiltin
  dsimp only
  split_ifs with hlt
  · exact .refl st
  · refine ⟨fun other r hr => ?_, fun other k hk => ?_, fun key other => ?_, fun ns => ?_⟩
    · exact fixed_modifyRoot (fun _ => rfl) (fun _ => rfl) hr
    · rw [referenceBuiltin_eq_self_iff] at hk ⊢
      obtain ⟨hoth, rfl⟩ := hk
      have hmem : other ∈ st.rootTable.builtinRefs := List.idxOf_lt_length_iff.mp hoth
      simp only [rootTable_modifyRoot, List.length_append, List.idxOf_append_of_mem hmem, and_true]
      omega
    · simp only [SymbolTable.resolveIn, rootTable_modifyRoot]
    · simp only [SymbolTable.lookupNamespace, rootTable_modifyRoot]

end Mutant.Compiler.SymbolTable
