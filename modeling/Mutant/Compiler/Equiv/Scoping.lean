import Mutant.Compiler.Scoping
/-!
# The symbol table implements lexical scoping

The store of a table is read through `ownOf`, the lookup `Resolve` starts with, and the open blocks
through the stores their undo logs lead back to.  The invariant `Levels` says that every one of
those stores, the present one and the one each `CloseBlock` would uncover, shows exactly the
declarations of the corresponding suffix of the reference's scopes.

* `lookup_undoAll`: replaying an undo log, as a function of the key;
* `Levels.define`, `Levels.updateInternal`, `Levels.updateFree`: the three ways a store is written;
* `Agree.resolve`: `Resolve` keeps the invariant and denotes the innermost declaration;
* `Agree.run`: so does every well-nested sequence of operations.
-/

namespace Mutant.Compiler

open Function List Option

variable {m name n key : String} {f : String → Option Symbol} {v : Option Symbol} {t : Table}
  {fn : FnScopes} {outer outer' : SymbolTable}

/-! ### Store keys -/

theorem qualify_of_ne (hm : m ≠ "") (name : String) :
    (qualify m name).toList = m.toList ++ '\x00' :: name.toList := by
  simp [qualify, hm, moduleSeparator]

@[simp] theorem qualify_empty (name : String) : qualify "" name = name := rfl

theorem qualify_inj {a b : String} : qualify m a = qualify m b ↔ a = b := by
  refine ⟨fun h => ?_, fun h => h ▸ rfl⟩
  by_cases hm : m = ""
  · subst hm; exact h
  · have h' := congrArg String.toList h
    rw [qualify_of_ne hm, qualify_of_ne hm] at h'
    exact String.toList_inj.mp (cons.inj (append_cancel_left h')).2

/-- A qualified key is no source name. -/
theorem qualify_ne_sourceName (hm : m ≠ "") (hn : SourceName n) : qualify m name ≠ n := by
  intro h
  have hmem : '\x00' ∈ n.toList := by
    rw [← h, qualify_of_ne hm]
    exact mem_append_right _ (mem_cons_self ..)
  exact (hn _ hmem).2 rfl

/-! ### Undo logs -/

/-- An undo log replayed on the store seen as a function of its keys. -/
def undoFn (f : String → Option Symbol) (undo : List Shadowed) : String → Option Symbol :=
  undo.foldr (fun entry acc => Function.update acc entry.key entry.previous) f

theorem undoFn_concat (f : String → Option Symbol) (undo : List Shadowed) (e : Shadowed) :
    undoFn f (undo ++ [e]) = undoFn (update f e.key e.previous) undo := by
  simp [undoFn]

/-- A write to a key no record names is still there after the log is replayed. -/
theorem undoFn_update_of_notMem {undo : List Shadowed} (h : ∀ e ∈ undo, e.key ≠ key) :
    undoFn (update f key v) undo = update (undoFn f undo) key v := by
  induction undo with
  | nil => rfl
  | cons e undo ih =>
    have hne : e.key ≠ key := h e (mem_cons_self ..)
    change update (undoFn (update f key v) undo) e.key e.previous =
      update (update (undoFn f undo) e.key e.previous) key v
    rw [ih (forall_mem_cons.mp h).2, update_comm hne]

theorem lookup_insert_eq_update (s : Store) (key : String) (sym : Symbol) :
    (fun k => (s.insert key sym).lookup k) = update (fun k => s.lookup k) key (some sym) := by
  funext k
  by_cases hk : k = key
  · subst hk; simp
  · simp [AList.lookup_insert_ne hk, update_of_ne hk]

theorem lookup_restore (s : Store) (e : Shadowed) : (fun k => (Table.restore s e).lookup k) =
      update (fun k => s.lookup k) e.key e.previous := by
  rcases e with ⟨key, _ | previous⟩
  · funext k
    by_cases hk : k = key
    · subst hk; simp [Table.restore]
    · simp [Table.restore, AList.lookup_erase_ne hk, update_of_ne hk]
  · exact lookup_insert_eq_update s key previous

theorem lookup_undoAll (s : Store) (undo : List Shadowed) :
    (fun k => (Table.undoAll s undo).lookup k) = undoFn (fun k => s.lookup k) undo := by
  induction undo with
  | nil => rfl
  | cons e undo ih =>
    change (fun k => (Table.restore (Table.undoAll s undo) e).lookup k) = _
    rw [lookup_restore, ih]
    rfl

/-! ### What a store shows -/

/-- A table's own reading of a name, over the store as a function: the current module's top level
first, the bare name second. -/
def ownOf (m : String) (f : String → Option Symbol) (name : String) : Option Symbol :=
  (f (qualify m name)).or (if m = "" then none else f name)

@[simp] theorem ownOf_empty (f : String → Option Symbol) (name : String) :
    ownOf "" f name = f name := by simp [ownOf]

theorem own_root (t : Table) (name : String) :
    (SymbolTable.root t).own name = ownOf t.currentModule (fun k => t.store.lookup k) name := by
  by_cases hm : t.currentModule = ""
  · have hq : qualify t.currentModule name = name := by rw [hm, qualify_empty]
    simp only [SymbolTable.own, ownOf, hm, if_true, or_none]
    exact congrArg (fun k => (t.store.lookup k : Option Symbol)) hq.symm
  · simp only [SymbolTable.own, ownOf, hm, ne_eq]
    cases t.store.lookup (qualify t.currentModule name) <;> rfl

theorem ownOf_update_self {sym : Symbol} :
    ownOf m (update f (qualify m name) (some sym)) name = some sym := by
  simp [ownOf]

/-- Writing a key that is not a source name's leaves what source names show. -/
theorem ownOf_update_of_ne (hkey : qualify m n ≠ key) (hbare : m ≠ "" → n ≠ key) :
    ownOf m (update f key v) n = ownOf m f n := by
  by_cases hm : m = ""
  · subst hm; simpa using update_of_ne hkey v f
  · simp [ownOf, update_of_ne hkey, update_of_ne (hbare hm)]

theorem ownOf_update_define (hn : SourceName n) (hne : n ≠ name) :
    ownOf m (update f (qualify m name) v) n = ownOf m f n :=
  ownOf_update_of_ne (fun h => hne (qualify_inj.mp h))
    (fun hm h => qualify_ne_sourceName hm hn h.symm)

/-! ### The levels of a table -/

/-- What a table has to show for a name: `R name shown declared` relates the symbol shown to the
declaration the function's own scopes hold. -/
abbrev Shows := String → Option Symbol → Option Decl → Prop

/-- Every store of a table, the present one and those its open blocks lead back to, shows the
corresponding scopes; and a block's log only names what the block itself declared. -/
def Levels (m : String) (R : Shows) (body : Scope) :
    (String → Option Symbol) → List BlockFrame → List Scope → Prop
  | f, [], [] => ∀ n, SourceName n → R n (ownOf m f n) (body.lookup n)
  | f, b :: bs, sc :: scs =>
    (∀ n, SourceName n → R n (ownOf m f n) ((FnScopes.visible (sc :: scs) body).lookup n)) ∧
    (∀ e ∈ b.undo, ∃ n, SourceName n ∧ e.key = qualify m n ∧ n ∈ sc.map Prod.fst) ∧
    Levels m R body (undoFn f b.undo) bs scs
  | _, _, _ => False

namespace Levels

variable {m name : String} {R : Shows} {body : Scope} {f : String → Option Symbol}
  {bs : List BlockFrame} {scs : List Scope} {sym : Symbol} {decl : Decl}

/-- The innermost level. -/
theorem innermost (h : Levels m R body f bs scs) (hn : SourceName n) :
    R n (ownOf m f n) ((FnScopes.visible scs body).lookup n) := by
  match bs, scs, h with
  | [], [], h => exact h n hn
  | _ :: _, _ :: _, h => exact h.1 n hn

theorem mono {R' : Shows} (hR : ∀ n s d, R n s d → R' n s d) :
    ∀ {f bs scs}, Levels m R body f bs scs → Levels m R' body f bs scs
  | _, [], [], h => fun n hn => hR _ _ _ (h n hn)
  | _, _ :: _, _ :: _, ⟨h₁, h₂, h₃⟩ => ⟨fun n hn => hR _ _ _ (h₁ n hn), h₂, mono hR h₃⟩

theorem openBlock (h : Levels m R body f bs scs) : Levels m R body f ({} :: bs) ([] :: scs) :=
  ⟨fun _ hn => by simpa [FnScopes.visible] using h.innermost hn, by simp, h⟩

/-- A name shown through `n = name` and unchanged elsewhere. -/
private theorem shows_update {scope : Scope} (hf : ∀ n, SourceName n → R n (ownOf m f n)
    (scope.lookup n)) (hR : R name (some sym) (some decl)) (n : String) (hn : SourceName n) :
    R n (ownOf m (update f (qualify m name) (some sym)) n)
      (List.lookup n ((name, decl) :: scope)) := by
  by_cases hne : n = name
  · subst hne
    rwa [ownOf_update_self, lookup_cons_self]
  · rw [ownOf_update_define hn hne, lookup_cons, beq_false_of_ne hne]
    exact hf n hn

/-- A declaration outside every block. -/
theorem define_body (h : Levels m R body f [] []) (hR : R name (some sym) (some decl)) :
    Levels m R ((name, decl) :: body) (update f (qualify m name) (some sym)) [] [] :=
  fun n hn => shows_update h hR n hn

/-- A declaration in the innermost block, with the record `noteShadowed` leaves. -/
theorem define_block {b : BlockFrame} {sc : Scope} (h : Levels m R body f (b :: bs) (sc :: scs))
    (hname : SourceName name) (hR : R name (some sym) (some decl)) :
    Levels m R body (update f (qualify m name) (some sym))
      ({ undo := b.undo ++ [⟨qualify m name, f (qualify m name)⟩] } :: bs)
      (((name, decl) :: sc) :: scs) := by
  obtain ⟨h₁, h₂, h₃⟩ := h
  refine ⟨fun n hn => shows_update h₁ hR n hn, ?_, ?_⟩
  · intro e he
    rcases mem_append.mp he with he | he
    · obtain ⟨n, hn, hkey, hmem⟩ := h₂ e he
      exact ⟨n, hn, hkey, mem_cons_of_mem _ hmem⟩
    · obtain rfl := mem_singleton.mp he
      exact ⟨name, hname, rfl, mem_cons_self ..⟩
  · -- the new record is replayed first, and puts back what the write displaced
    rwa [undoFn_concat, update_idem, update_eq_self]

/-- A write no source name can see, under a key no log names. -/
theorem update_unseen
    (hkey : ∀ n, SourceName n → qualify m n ≠ key) (hbare : m ≠ "" → ∀ n, SourceName n → n ≠ key) :
    ∀ {f bs scs}, Levels m R body f bs scs → Levels m R body (update f key v) bs scs
  | f, [], [], h => fun n hn => by
    rw [ownOf_update_of_ne (hkey n hn) fun hm => hbare hm n hn]
    exact h n hn
  | f, b :: bs, sc :: scs, ⟨h₁, h₂, h₃⟩ => by
    refine ⟨fun n hn => ?_, h₂, ?_⟩
    · rw [ownOf_update_of_ne (hkey n hn) fun hm => hbare hm n hn]
      exact h₁ n hn
    · rw [undoFn_update_of_notMem]
      · exact update_unseen hkey hbare h₃
      · intro e he
        obtain ⟨n, hn, hk, -⟩ := h₂ e he
        exact hk ▸ hkey n hn

/-- A compiler temporary is a write no source name can see. -/
theorem updateInternal (hkey : ¬ SourceName key) (h : Levels m R body f bs scs) :
    Levels m R body (update f (qualify m key) v) bs scs := by
  refine update_unseen (fun n hn hq => ?_) (fun hm n hn hq => ?_) h
  · obtain rfl := qualify_inj.mp hq
    exact hkey hn
  · exact qualify_ne_sourceName hm hn hq.symm

/-- A capture of a name the function itself does not declare.  No level declares it and no log
names it, so every level showed nothing and now shows the capture. -/
theorem updateFree : ∀ {f : String → Option Symbol} {bs scs}, Levels "" R body f bs scs →
    (FnScopes.visible scs body).lookup name = none → R name (some sym) none →
    Levels "" R body (update f name (some sym)) bs scs
  | f, [], [], h, hnone, hR => fun n hn => by
    by_cases hne : n = name
    · subst hne
      have hbody : body.lookup n = none := by simpa [FnScopes.visible] using hnone
      simpa [hbody] using hR
    · simpa [update_of_ne hne] using h n hn
  | f, b :: bs, sc :: scs, ⟨h₁, h₂, h₃⟩, hnone, hR => by
    have hspl : sc.lookup name = none ∧ (FnScopes.visible scs body).lookup name = none := by
      simpa [FnScopes.visible, lookup_append] using hnone
    refine ⟨fun n hn => ?_, h₂, ?_⟩
    · by_cases hne : n = name
      · subst hne
        simpa [hnone] using hR
      · simpa [update_of_ne hne] using h₁ n hn
    -- no block has shadowed the name, so no undo log touches it
    · rw [undoFn_update_of_notMem]
      · exact updateFree h₃ hspl.2 hR
      · intro e he hk
        obtain ⟨n, -, hkey, hmem⟩ := h₂ e he
        obtain rfl : n = name := by rw [← hk, hkey, qualify_empty]
        have := lookup_eq_none_iff.mp hspl.1
        obtain ⟨p, hp, rfl⟩ := mem_map.mp hmem
        simpa using this p hp

end Levels

/-! ### Table and environment -/

/-- The root shows the innermost declaration, or what it showed when the sequence began. -/
def RootShows (base : String → Option Decl) : Shows := fun n shown declared =>
  (∀ s, shown = some s → s.scope = .builtinScope ∨ s.scope = .globalScope) ∧
  shown.bind (SymbolTable.root {}).denote = declared.or (base n)

/-- A function's table shows its own declarations, and for other names nothing or a capture whose
chain leads to what the name means outside. -/
def FnShows (free : List Symbol) (outer : SymbolTable) (env : Env) : Shows :=
  fun n shown declared =>
    match declared with
    | some d => ∃ s, shown = some s ∧ s.name = n ∧
        (s.scope = .localScope ∧ d = .slot (outer.depth + 1) s.index ∨
          s.scope = .functionScope ∧ d = .self (outer.depth + 1))
    | none => ∀ s, shown = some s → s.name = n ∧ s.scope = .freeScope ∧
        ∃ d, (free[s.index]?).bind outer.denote = some d ∧ env.lookup n = some d

/-- The slots a table has handed out are distinct, and the next one is new. -/
structure SlotsOk (t : Table) (fn : FnScopes) : Prop where
  nodup : fn.slots.Nodup
  lt : ∀ slot ∈ fn.slots, slot < t.numDefinitions

theorem SlotsOk.congr {fn' : FnScopes} (h : SlotsOk t fn)
    (hsl : fn'.slots = fn.slots) : SlotsOk t fn' :=
  ⟨hsl ▸ h.nodup, hsl ▸ h.lt⟩

/-- The invariant: at every table of the chain, the levels show the scopes of the function. -/
def Agree : SymbolTable → Env → Prop
  | .root t, .root fn base =>
    Levels t.currentModule (RootShows base) fn.body (fun k => t.store.lookup k) t.blocks fn.blocks ∧
    SlotsOk t fn
  | .enclosed t outer, .enclosed fn env =>
    Agree outer env ∧
    Levels "" (FnShows t.freeSymbols outer env) fn.body (fun k => t.store.lookup k)
      t.blocks fn.blocks ∧
    SlotsOk t fn
  | _, _ => False

/-- A later state of the same chain: more captures, and no symbol means anything else. -/
structure Extends (st st' : SymbolTable) : Prop where
  depth : st'.depth = st.depth
  denote : ∀ s d, st.denote s = some d → st'.denote s = some d

theorem Extends.refl (st : SymbolTable) : Extends st st := ⟨rfl, fun _ _ h => h⟩

theorem Extends.trans {a b c : SymbolTable} (h : Extends a b) (h' : Extends b c) : Extends a c :=
  ⟨h'.depth.trans h.depth, fun s d hs => h'.denote s d (h.denote s d hs)⟩

/-- Growing a function's capture list, and extending what is outside it. -/
theorem Extends.enclosed {t' : Table} (h : Extends outer outer')
    (hfree : ∃ more, t'.freeSymbols = t.freeSymbols ++ more) :
    Extends (.enclosed t outer) (.enclosed t' outer') := by
  obtain ⟨more, hmore⟩ := hfree
  refine ⟨by simp [SymbolTable.depth, h.depth], fun s d hs => ?_⟩
  rcases s with ⟨name, scope, index⟩
  cases scope <;> simp only [SymbolTable.denote, h.depth] at hs ⊢ <;> try exact hs
  obtain ⟨orig, horig, hd⟩ := bind_eq_some_iff.mp hs
  have hlt : index < t.freeSymbols.length := (List.getElem?_eq_some_iff.mp horig).1
  rw [hmore, getElem?_append_left hlt, horig]
  exact h.denote orig d hd

theorem Extends.markCaptured (st : SymbolTable) (idx : Nat) :
    Extends st (st.setTable (st.table.markCaptured idx)) := by
  have hfree : (st.table.markCaptured idx).freeSymbols = st.table.freeSymbols := by
    unfold Table.markCaptured
    split_ifs <;> rfl
  cases st with
  | root t => exact ⟨rfl, fun s d hs => hs⟩
  | enclosed t outer => exact .enclosed (.refl outer) ⟨[], hfree.trans (append_nil _).symm⟩

/-- What a store shows stays when more is captured. -/
theorem FnShows.mono {free : List Symbol} (more : List Symbol)
    {env : Env} (h : Extends outer outer') (n : String) (s : Option Symbol) (d : Option Decl)
    (hs : FnShows free outer env n s d) : FnShows (free ++ more) outer' env n s d := by
  cases d with
  | some d => simpa only [FnShows, h.depth] using hs
  | none =>
    intro s' hs'
    obtain ⟨hname, hsc, d, hd, hlook⟩ := hs s' hs'
    obtain ⟨orig, horig, hd⟩ := bind_eq_some_iff.mp hd
    have hlt : s'.index < free.length := (List.getElem?_eq_some_iff.mp horig).1
    refine ⟨hname, hsc, d, ?_, hlook⟩
    rw [getElem?_append_left hlt, horig]
    exact h.denote orig d hd

/-- An answer of `Resolve` that the environment agrees with. -/
inductive Answers (name : String) (env : Env) : Option Symbol × SymbolTable → Prop
  | unknown {st} : env.lookup name = none → Answers name env (none, st)
  | found {s st d} : st.denote s = some d → env.lookup name = some d →
      (s.scope = .globalScope ∨ s.scope = .builtinScope ∨ s.name = name) →
      Answers name env (some s, st)

@[simp] theorem Env.setFn_fn (env : Env) : env.setFn env.fn = env := by
  cases env <;> rfl

namespace Agree

variable {st : SymbolTable} {env : Env}

/-- A change of the innermost table that its levels survive, whatever they have to show. -/
theorem change {t' : Table} {fn' : FnScopes} (h : Agree st env)
    (hkeep : t'.currentModule = st.table.currentModule ∧ t'.freeSymbols = st.table.freeSymbols)
    (hsl : SlotsOk st.table env.fn → SlotsOk t' fn') (hlev : ∀ m R, st.ownKey = qualify m →
      (∀ name idx, R name (some ⟨name, st.ownScope, idx⟩) (some (.slot st.depth idx))) →
      Levels m R env.fn.body (fun k => st.table.store.lookup k) st.table.blocks env.fn.blocks →
      Levels m R fn'.body (fun k => t'.store.lookup k) t'.blocks fn'.blocks) :
    Agree (st.setTable t') (env.setFn fn') := by
  obtain ⟨hmod, hfree⟩ := hkeep
  match st, env, h with
  | .root t, .root fn base, ⟨hl, hs⟩ =>
    refine ⟨?_, hsl hs⟩
    rw [hmod]
    refine hlev _ _ rfl (fun name idx => ⟨by simp [SymbolTable.ownScope], ?_⟩) hl
    simp [SymbolTable.denote, SymbolTable.ownScope, SymbolTable.depth]
  | .enclosed t outer, .enclosed fn env, ⟨hout, hl, hs⟩ =>
    refine ⟨hout, ?_, hsl hs⟩
    rw [hfree]
    exact hlev "" _ rfl (fun name idx => ⟨_, rfl, rfl, .inl ⟨rfl, rfl⟩⟩) hl

theorem markCaptured (h : Agree st env) (idx : Nat) :
    Agree (st.setTable (st.table.markCaptured idx)) env := by
  have hmark : st.table.markCaptured idx =
      { st.table with capturedLocals := (st.table.markCaptured idx).capturedLocals } := by
    unfold Table.markCaptured
    split_ifs <;> rfl
  rw [hmark, ← Env.setFn_fn env]
  exact h.change ⟨rfl, rfl⟩ (fun hs => ⟨hs.nodup, hs.lt⟩) fun _ _ _ _ hl => hl

section

variable (h : Agree (.enclosed t outer) (.enclosed fn env))

include h

/-- The chain outside a function grows, and the function's own levels still stand. -/
theorem outer_extends (hext : Extends outer outer')
    (hout : Agree outer' env) : Agree (.enclosed t outer') (.enclosed fn env) := by
  obtain ⟨-, hlev, hsl⟩ := h
  refine ⟨hout, hlev.mono fun n s d hs => ?_, hsl⟩
  simpa using FnShows.mono [] hext n s d hs

/-- A capture is recorded for a name the function does not declare. -/
theorem defineFree {d : Decl} {orig : Symbol}
    (hnone : (FnScopes.visible fn.blocks fn.body).lookup orig.name = none)
    (hden : outer.denote orig = some d) (hlook : env.lookup orig.name = some d) :
    Agree (.enclosed (t.defineFree orig).2 outer) (.enclosed fn env) := by
  obtain ⟨hout, hlev, hsl⟩ := h
  refine ⟨hout, ?_, hsl.nodup, hsl.lt⟩
  change Levels "" (FnShows (t.freeSymbols ++ [orig]) outer env) fn.body
    (fun k => (t.store.insert orig.name _).lookup k) t.blocks fn.blocks
  rw [lookup_insert_eq_update]
  refine Levels.updateFree (hlev.mono (FnShows.mono _ (.refl outer))) hnone ?_
  intro s hs
  cases hs
  exact ⟨rfl, rfl, d, by simp [hden], hlook⟩

/-- The last step of a `Resolve` that walked outward: the owner of a local slot is told to box it,
and the capture is recorded. -/
theorem capture {d : Decl} {orig : Symbol}
    (hnone : (FnScopes.visible fn.blocks fn.body).lookup orig.name = none)
    (hden : outer.denote orig = some d) (hlook : env.lookup orig.name = some d)
    (hout'' : outer' = if orig.scope = .localScope then
      outer.setTable (outer.table.markCaptured orig.index) else outer) :
    Agree (.enclosed (t.defineFree orig).2 outer') (.enclosed fn env) ∧
    Extends (.enclosed t outer) (.enclosed (t.defineFree orig).2 outer') ∧
    (SymbolTable.enclosed (t.defineFree orig).2 outer').denote (t.defineFree orig).1 =
      some d := by
  -- the captured local is only marked in its own table
  have hext : Extends outer outer' := by
    subst hout''
    split_ifs
    · exact .markCaptured ..
    · exact .refl _
  have hout : Agree outer' env := by
    subst hout''
    split_ifs
    · exact h.1.markCaptured _
    · exact h.1
  have hden' := hext.denote _ _ hden
  refine ⟨defineFree (outer_extends h hext hout) hnone hden' hlook,
    .enclosed hext ⟨[orig], rfl⟩, ?_⟩
  simpa [SymbolTable.denote, Table.defineFree] using hden'

end

/-- A symbol found in the function's own table. -/
theorem own_found {s : Symbol} (hs : t.store.lookup name = some s)
    (hshow : FnShows t.freeSymbols outer env name (t.store.lookup name)
      ((FnScopes.visible fn.blocks fn.body).lookup name)) :
    Answers name (.enclosed fn env) (some s, .enclosed t outer) := by
  rw [hs] at hshow
  rcases hv : (FnScopes.visible fn.blocks fn.body).lookup name with _ | d
  · rw [hv] at hshow
    obtain ⟨hname, hsc, d, hd, hlook⟩ := hshow s rfl
    refine .found (d := d) ?_ ?_ (.inr (.inr hname))
    · simpa [SymbolTable.denote, hsc] using hd
    · rw [Env.lookup, hv, none_or, hlook]
  · rw [hv] at hshow
    obtain ⟨s', hs', hname, hkind⟩ := hshow
    cases hs'
    refine .found (d := d) ?_ ?_ (.inr (.inr hname))
    · rcases hkind with ⟨hsc, rfl⟩ | ⟨hsc, rfl⟩ <;> simp [SymbolTable.denote, hsc]
    · rw [Env.lookup, hv, some_or]

/-- **`Resolve`** keeps the invariant, only adds captures, and answers with the innermost visible
declaration. -/
theorem resolve (hname : SourceName name) : ∀ {st : SymbolTable} {env : Env},
    Agree st env → Agree (st.resolve name).2 env ∧ Extends st (st.resolve name).2 ∧
      Answers name env (st.resolve name)
  | .root t, .root fn base, h => by
    refine ⟨h, .refl _, ?_⟩
    have hown : (SymbolTable.root t).resolve name = (ownOf t.currentModule
        (fun k => t.store.lookup k) name, .root t) := by
      rw [SymbolTable.resolve, own_root]
    obtain ⟨hscope, hden⟩ := h.1.innermost hname
    rw [hown]
    rcases hs : ownOf t.currentModule (fun k => t.store.lookup k) name with _ | s
    · rw [hs] at hden
      exact .unknown hden.symm
    · rw [hs] at hden
      have hsc := hscope s hs
      have hd : ∃ d, (SymbolTable.root t).denote s = some d ∧
          (SymbolTable.root {}).denote s = some d := by
        rcases hsc with hsc | hsc <;> simp [SymbolTable.denote, hsc]
      obtain ⟨d, hd, hd'⟩ := hd
      exact .found hd (hden.symm.trans hd') (hsc.elim (fun h => .inr (.inl h)) .inl)
  | .enclosed t outer, .enclosed fn env, h => by
    obtain ⟨hout, hlev, hsl⟩ := h
    have hshow := hlev.innermost hname
    rw [ownOf_empty] at hshow
    rw [SymbolTable.resolve]
    rcases hs : t.store.lookup name with _ | s
    · -- not in this table: the name is not declared by this function, so it means what it means
      -- outside
      have hnone : (FnScopes.visible fn.blocks fn.body).lookup name = none := by
        rcases hv : (FnScopes.visible fn.blocks fn.body).lookup name with _ | d
        · rfl
        · rw [hv] at hshow
          obtain ⟨s, hs', -⟩ := hshow
          exact absurd (hs.symm.trans hs') (by simp)
      have hlook : (Env.enclosed fn env).lookup name = env.lookup name := by
        rw [Env.lookup, hnone, none_or]
      obtain ⟨hout', hext, hans⟩ := resolve hname hout
      have hagr := outer_extends ⟨hout, hlev, hsl⟩ hext hout'
      rcases hr : outer.resolve name with ⟨_ | original, outer'⟩
      · rw [hr] at hans hagr hext
        obtain ⟨hunk⟩ := hans
        exact ⟨hagr, .enclosed hext ⟨[], by simp⟩, .unknown (hlook.trans hunk)⟩
      · rw [hr] at hans hagr hext
        obtain _ | ⟨hden, hfnd, hsc⟩ := hans
        by_cases hglob : original.scope = .globalScope ∨ original.scope = .builtinScope
        · have hden' : ∀ t', (SymbolTable.enclosed t' outer').denote original =
              outer'.denote original := by
            intro t'
            cases outer' <;> rcases hglob with hg | hg <;> simp [SymbolTable.denote, hg]
          simp only [if_pos hglob]
          exact ⟨hagr, .enclosed hext ⟨[], by simp⟩,
            .found ((hden' t).trans hden) (hlook.trans hfnd) (hglob.imp_right .inl)⟩
        · have hnm : original.name = name := by
            rcases hsc with hg | hg | hg
            · exact absurd (.inl hg) hglob
            · exact absurd (.inr hg) hglob
            · exact hg
          subst hnm
          obtain ⟨hcap, hcapext, hcapden⟩ := capture hagr hnone hden hfnd rfl
          simp only [if_neg hglob]
          exact ⟨hcap, .trans (.enclosed hext ⟨[], by simp⟩) hcapext,
            .found hcapden (hlook.trans hfnd) (.inr (.inr rfl))⟩
    · exact ⟨⟨hout, hlev, hsl⟩, .refl _, own_found hs hshow⟩

/-! ### The other operations -/

theorem newEnclosed (h : Agree st env) : Agree st.newEnclosed (.enclosed {} env) := by
  refine ⟨h, fun n _ => ?_, by simp, by simp⟩
  simp [FnShows]

/-- A function can name itself in its body. -/
theorem defineFunctionName (h : Agree st env) :
    Agree (st.newEnclosed.defineFunctionName name)
      (.enclosed { body := [(name, .self (st.depth + 1))] } env) := by
  obtain ⟨-, hlev, -⟩ := h.newEnclosed
  refine ⟨h, ?_, by simp, by simp⟩
  have hR : FnShows [] st env name (some ⟨name, .functionScope, 0⟩) (some (.self (st.depth + 1))) :=
    ⟨_, rfl, rfl, .inr ⟨rfl, rfl⟩⟩
  have := Levels.define_body hlev hR
  rw [← lookup_insert_eq_update] at this
  exact this

theorem openBlock (h : Agree st env) :
    Agree st.openBlock (env.setFn { env.fn with blocks := [] :: env.fn.blocks }) :=
  h.change ⟨rfl, rfl⟩ (fun hs => ⟨hs.nodup, hs.lt⟩) fun _ _ _ _ hl => hl.openBlock

variable {t : Table} {scs : List Scope}

/-- Closing a block uncovers the next level. -/
private theorem levels_closeBlock {m : String} {R : Shows} (fn : FnScopes) {sc : Scope}
    (hfn : fn.blocks = sc :: scs)
    (h : Levels m R fn.body (fun k => t.store.lookup k) t.blocks fn.blocks) :
    Levels m R fn.body (fun k => t.closeBlock.store.lookup k) t.closeBlock.blocks scs := by
  rw [hfn] at h
  unfold Table.closeBlock
  rcases hb : t.blocks with _ | ⟨b, bs⟩
  · rw [hb] at h
    exact h.elim
  · rw [hb] at h
    rw [lookup_undoAll]
    exact h.2.2

private theorem slots_closeBlock {fn : FnScopes}
    (h : SlotsOk t fn) : SlotsOk t.closeBlock { fn with blocks := scs } := by
  have hnum : t.closeBlock.numDefinitions = t.numDefinitions := by
    unfold Table.closeBlock; split <;> rfl
  exact ⟨h.nodup, hnum ▸ h.lt⟩

theorem closeBlock {sc : Scope} (h : Agree st env) (hfn : env.fn.blocks = sc :: scs) :
    Agree st.closeBlock (env.setFn { env.fn with blocks := scs }) := by
  refine h.change ?_ slots_closeBlock fun _ _ _ _ hl => levels_closeBlock env.fn hfn hl
  unfold Table.closeBlock
  split <;> exact ⟨rfl, rfl⟩

/-- One declaration, at the levels of one table. -/
private theorem levels_define {m name : String} {R : Shows} {fn : FnScopes}
    {sym : Symbol} {decl : Decl} (hname : SourceName name) (hR : R name (some sym) (some decl))
    (h : Levels m R fn.body (fun k => t.store.lookup k) t.blocks fn.blocks) :
    Levels m R (fn.declare name decl).body
      (fun k => ((t.noteShadowed (qualify m name)).allocate (qualify m name) sym).store.lookup k)
      (t.noteShadowed (qualify m name)).blocks (fn.declare name decl).blocks := by
  rw [Table.allocate, lookup_insert_eq_update]
  unfold Table.noteShadowed FnScopes.declare
  rcases hb : t.blocks with _ | ⟨b, bs⟩ <;> rcases hf : fn.blocks with _ | ⟨sc, scs⟩ <;>
    rw [hb, hf] at h
  · simpa only [hb, hf] using h.define_body hR
  · exact h.elim
  · exact h.elim
  · exact h.define_block hname hR

private theorem slots_define {t' : Table} {fn : FnScopes} (h : SlotsOk t fn)
    (ht : t'.numDefinitions = t.numDefinitions + 1) : SlotsOk t' (fn.claim t.numDefinitions) where
  nodup := nodup_cons.mpr ⟨fun hmem => (h.lt _ hmem).false, h.nodup⟩
  lt := by
    intro slot hslot
    rcases mem_cons.mp hslot with rfl | hslot
    · omega
    · have := h.lt slot hslot
      omega

/-- A declaration is found under its name, and its slot is claimed. -/
theorem define (hname : SourceName name) (h : Agree st env) :
    Agree (st.define name).2 (env.setFn ((env.fn.declare name
      (.slot st.depth (st.define name).1.index)).claim (st.define name).1.index)) := by
  have hnote (key : String) : (st.table.noteShadowed key).currentModule = st.table.currentModule ∧
      (st.table.noteShadowed key).freeSymbols = st.table.freeSymbols ∧
      (st.table.noteShadowed key).numDefinitions = st.table.numDefinitions := by
    unfold Table.noteShadowed
    split <;> exact ⟨rfl, rfl, rfl⟩
  have hdecl (d : Decl) : (env.fn.declare name d).slots = env.fn.slots := by
    unfold FnScopes.declare
    split <;> rfl
  refine h.change ⟨(hnote _).1, (hnote _).2.1⟩
    (fun hs => slots_define (hs.congr (hdecl _)) (by simp [Table.allocate, hnote]))
    fun m R hm hR hl => ?_
  rw [hm]
  exact levels_define hname (hR name _) hl

theorem defineInternal (hkey : ¬ SourceName key) (h : Agree st env) :
    Agree (st.defineInternal key).2 (env.setFn (env.fn.claim (st.defineInternal key).1.index)) := by
  refine h.change ⟨rfl, rfl⟩ (fun hs => slots_define hs rfl) fun m R hm _ hl => ?_
  rw [Table.allocate, hm, lookup_insert_eq_update]
  exact hl.updateInternal hkey

/-- **Step lemma**: every operation the compiler may issue keeps the invariant. -/
theorem step {σ σ' : Session} {op : Op} (h : Agree σ.table σ.env) :
    σ.step op = some σ' → Agree σ'.table σ'.env := by
  fun_cases Session.step σ op <;> rintro ⟨⟩
  case case1 => exact h.newEnclosed
  case case2 => exact h.defineFunctionName
  case case4 htab henv =>
    rw [htab, henv] at h
    exact h.1
  case case6 => exact h.openBlock
  case case8 hfn => exact h.closeBlock hfn
  case case9 hname _ => exact h.define hname
  case case12 hkey => exact h.defineInternal hkey
  case case13 hname => exact (h.resolve hname).1

/-- **Run lemma**: so does every sequence of them. -/
theorem run {ops : List Op} {σ σ' : Session} (h : Agree σ.table σ.env)
    (hrun : σ.run ops = some σ') : Agree σ'.table σ'.env := by
  induction ops generalizing σ with
  | nil =>
    cases hrun
    exact h
  | cons op ops ih =>
    obtain ⟨σ₁, hstep, hrest⟩ := bind_eq_some_iff.mp hrun
    exact ih (h.step hstep) hrest

/-- A root table between two compilations agrees with the environment it shows. -/
theorem start (ht : t.IsRoot) : Agree (Session.start t).table (Session.start t).env := by
  refine ⟨?_, nodup_range, fun slot hslot => mem_range.mp hslot⟩
  rw [ht.blocks]
  intro n _
  have hsc : ∀ s, ownOf t.currentModule (fun k => t.store.lookup k) n = some s →
      s.scope = .builtinScope ∨ s.scope = .globalScope := by
    intro s hs
    rcases or_eq_some_iff.mp hs with hs | ⟨-, hs⟩
    · exact (ht.symbols _ _ hs).imp_right And.left
    · split_ifs at hs
      exact (ht.symbols _ _ hs).imp_right And.left
  refine ⟨hsc, ?_⟩
  simp only [SymbolTable.resolved, SymbolTable.resolve, own_root]
  rfl

end Agree

/-! ### Well-nested blocks -/

/-- The scopes after a balanced sequence: only the innermost one has grown. -/
inductive FnScopes.Grown (fn : FnScopes) : FnScopes → Prop
  | body (new : Scope) {slots} : fn.blocks = [] → Grown fn ⟨[], new ++ fn.body, slots⟩
  | block (new : Scope) {slots sc scs} : fn.blocks = sc :: scs →
      Grown fn ⟨(new ++ sc) :: scs, fn.body, slots⟩

namespace FnScopes.Grown

theorem of_eq {fn' : FnScopes} (hbs : fn'.blocks = fn.blocks) (hbody : fn'.body = fn.body) :
    Grown fn fn' := by
  rcases fn' with ⟨blocks, body, slots⟩
  obtain rfl : body = fn.body := hbody
  rcases hb : fn.blocks with _ | ⟨sc, scs⟩
  · obtain rfl : blocks = [] := hbs.trans hb
    exact .body [] hb
  · obtain rfl : blocks = sc :: scs := hbs.trans hb
    exact .block [] hb

theorem trans {a b c : FnScopes} (h : Grown a b) (h' : Grown b c) : Grown a c := by
  rcases h with ⟨_, ha⟩ | ⟨_, ha⟩ <;> rcases h' with ⟨_, hb⟩ | ⟨_, hb⟩
  · simp only [← append_assoc]
    exact .body _ ha
  · cases hb
  · cases hb
  · obtain ⟨rfl, rfl⟩ := cons.inj hb
    simp only [← append_assoc]
    exact .block _ ha

theorem declare (fn : FnScopes) (name : String) (d : Decl) (slot : Nat) :
    Grown fn ((fn.declare name d).claim slot) := by
  unfold FnScopes.declare FnScopes.claim
  rcases hb : fn.blocks with _ | ⟨sc, scs⟩
  · exact .body [(name, d)] hb
  · exact .block [(name, d)] hb

end FnScopes.Grown

/-- The environment after a balanced sequence. -/
def Env.Grown (env env' : Env) : Prop := ∃ fn, env' = env.setFn fn ∧ env.fn.Grown fn

@[simp] theorem Env.fn_setFn (env : Env) (fn : FnScopes) : (env.setFn fn).fn = fn := by
  cases env <;> rfl

@[simp] theorem Env.setFn_setFn (env : Env) (fn fn' : FnScopes) :
    (env.setFn fn).setFn fn' = env.setFn fn' := by
  cases env <;> rfl

theorem Env.Grown.trans {a b c : Env} (h : a.Grown b) (h' : b.Grown c) : a.Grown c := by
  obtain ⟨fn, rfl, hfn⟩ := h
  obtain ⟨fn', rfl, hfn'⟩ := h'
  exact ⟨fn', by simp, hfn.trans (by simpa using hfn')⟩

theorem Env.Grown.refl (env : Env) : env.Grown env := ⟨env.fn, by simp, .of_eq rfl rfl⟩

namespace Session

variable {σ σ' : Session} {ops ops' : List Op}

theorem run_cons {op : Op} :
    σ.run (op :: ops) = some σ' ↔ ∃ σ₁, σ.step op = some σ₁ ∧ σ₁.run ops = some σ' :=
  bind_eq_some_iff

theorem run_append :
    σ.run (ops ++ ops') = some σ' ↔ ∃ σ₁, σ.run ops = some σ₁ ∧ σ₁.run ops' = some σ' := by
  rw [run, foldlM_append]
  exact bind_eq_some_iff

/-- A block around operations that only grow its own scope leaves the scopes as they were. -/
theorem env_block {σ₁ σ₂ σ₃ : Session} (hopen : σ.step .openBlock = some σ₁)
    (hinn : σ₁.env.Grown σ₂.env) (hcl : σ₂.step .closeBlock = some σ₃) :
    ∃ fn, σ₃.env = σ.env.setFn fn ∧ fn.blocks = σ.env.fn.blocks ∧ fn.body = σ.env.fn.body := by
  cases hopen
  obtain ⟨fn, henv, hgr⟩ := hinn
  simp only [Env.fn_setFn] at hgr
  obtain ⟨_, hnil⟩ | ⟨_, hcons⟩ := hgr
  · cases hnil
  · obtain ⟨rfl, rfl⟩ := cons.inj hcons
    simp only [step, henv, Env.fn_setFn] at hcl
    cases hcl
    refine ⟨_, (Env.setFn_setFn ..).trans (Env.setFn_setFn ..), rfl, rfl⟩

/-- A function entered and left leaves the environment as it was. -/
theorem env_function {σ₁ σ₂ σ₃ : Session}
    (henter : σ.step (.enterFunction name) = some σ₁) (hinn : σ₁.env.Grown σ₂.env)
    (hleave : σ₂.step .leaveFunction = some σ₃) : σ₃.env = σ.env := by
  have henv : ∃ fn, σ₁.env = .enclosed fn σ.env := by
    simp only [step] at henter
    split_ifs at henter <;> obtain rfl := some.inj henter <;> exact ⟨_, rfl⟩
  obtain ⟨fn, henv⟩ := henv
  obtain ⟨fn', henv', -⟩ := hinn
  rw [henv] at henv'
  rcases σ₂ with ⟨_ | ⟨t, outer⟩, env⟩ <;> obtain rfl : env = .enclosed fn' σ.env := henv' <;>
    rcases fn' with ⟨_ | _, _, _⟩ <;> simp only [step, reduceCtorEq] at hleave
  cases hleave
  rfl

/-- A balanced sequence only grows the innermost scope. -/
theorem grown_of_balanced (hb : Balanced ops) (hrun : σ.run ops = some σ') :
    σ.env.Grown σ'.env := by
  induction hb generalizing σ σ' with
  | nil =>
    cases hrun
    exact .refl _
  | define name _ ih =>
    obtain ⟨σ₁, hstep, hrest⟩ := run_cons.mp hrun
    simp only [step] at hstep
    split_ifs at hstep
    cases hstep
    exact .trans ⟨_, rfl, .declare ..⟩ (ih hrest)
  | defineInternal key _ ih =>
    obtain ⟨σ₁, hstep, hrest⟩ := run_cons.mp hrun
    simp only [step] at hstep
    split_ifs at hstep
    cases hstep
    have hclaim := ih hrest
    exact .trans ⟨σ.env.fn.claim _, rfl, .of_eq rfl rfl⟩ hclaim
  | resolve name _ ih =>
    obtain ⟨σ₁, hstep, hrest⟩ := run_cons.mp hrun
    simp only [step] at hstep
    split_ifs at hstep
    cases hstep
    have hrest' := ih hrest
    exact hrest'
  -- what a block or a function declares is gone when it ends
  | block _ _ ihin ih =>
    obtain ⟨σ₁, hopen, hrun⟩ := run_cons.mp hrun
    obtain ⟨σ₂, hinn, hrun⟩ := run_append.mp hrun
    obtain ⟨σ₃, hcl, hrest⟩ := run_cons.mp hrun
    obtain ⟨fn, henv, hbs, hbody⟩ := env_block hopen (ihin hinn) hcl
    exact .trans ⟨fn, henv, .of_eq hbs hbody⟩ (ih hrest)
  | function name _ _ ihin ih =>
    obtain ⟨σ₁, henter, hrun⟩ := run_cons.mp hrun
    obtain ⟨σ₂, hinn, hrun⟩ := run_append.mp hrun
    obtain ⟨σ₃, hleave, hrest⟩ := run_cons.mp hrun
    have henv := env_function henter (ihin hinn) hleave
    exact henv ▸ ih hrest

end Session

theorem Env.lookup_setFn {env : Env} (hbs : fn.blocks = env.fn.blocks)
    (hbody : fn.body = env.fn.body) (name : String) :
    (env.setFn fn).lookup name = env.lookup name := by
  cases env <;> simp only [Env.setFn, Env.lookup, hbs, hbody, Env.fn]

namespace Agree

/-- A name is known exactly when the reference knows it, and means the same declaration. -/
theorem resolved {st : SymbolTable} {env : Env} (h : Agree st env)
    (hname : SourceName name) : st.resolved name = env.lookup name ∧
      (st.resolve name).1.isSome = (env.lookup name).isSome := by
  obtain ⟨-, -, hans⟩ := h.resolve hname
  unfold SymbolTable.resolved
  rcases hr : st.resolve name with ⟨_ | s, st'⟩ <;> rw [hr] at hans
  · obtain ⟨hunk⟩ := hans
    simp [hunk]
  · obtain _ | ⟨hden, hlook, -⟩ := hans
    simp [hden, hlook]

theorem slots_nodup : ∀ {st : SymbolTable} {env : Env}, Agree st env →
    ∀ fn ∈ env.functions, fn.slots.Nodup
  | .root _, .root _ _, h, _, hfn => List.mem_singleton.mp hfn ▸ h.2.nodup
  | .enclosed _ _, .enclosed _ _, h, fn, hfn => by
    rcases List.mem_cons.mp hfn with rfl | hfn
    · exact h.2.2.nodup
    · exact slots_nodup h.1 fn hfn

end Agree

/-! ### Main result -/

theorem Table.IsRoot.new : ({} : Table).IsRoot := ⟨rfl, rfl, by simp⟩

/-- Filing the builtins keeps a root table one. -/
theorem Table.IsRoot.defineBuiltin (ht : t.IsRoot) (idx : Nat) (name : String) :
    (t.defineBuiltin idx name).IsRoot := by
  refine ⟨ht.blocks, ht.freeSymbols, fun key sym hsym => ?_⟩
  have hsym : update (fun k => t.store.lookup k) name
      (some ⟨name, .builtinScope, idx⟩) key = some sym :=
    (congrFun (lookup_insert_eq_update t.store name _) key).symm.trans hsym
  by_cases hk : key = name
  · subst hk
    rw [update_self] at hsym
    exact .inl (some.inj hsym ▸ rfl)
  · rw [update_of_ne hk] at hsym
    exact ht.symbols key sym hsym

/-- **Lexical scoping.**  After every well-nested sequence of operations on a root table and the
tables entered from it:

* `Resolve` of a name succeeds exactly when the name has a visible declaration, and its answer
  stands for the innermost one: the slot that declaration was given, or the own name of a function;
* no two declarations of one table share a slot;
* a block, whatever is done in it, leaves every name meaning what it meant when it was opened. -/
theorem resolve_denotes_innermost {t : Table} (ht : t.IsRoot) {ops : List Op} {σ : Session}
    (hrun : (Session.start t).run ops = some σ) :
    (∀ name, SourceName name → (σ.table.resolve name).1.isSome = (σ.env.lookup name).isSome ∧
      σ.table.resolved name = σ.env.lookup name) ∧
    (∀ fn ∈ σ.env.functions, fn.slots.Nodup) ∧
    (∀ inner σ', Balanced inner → σ.run (.openBlock :: inner ++ [.closeBlock]) = some σ' →
      ∀ name, SourceName name → σ'.table.resolved name = σ.table.resolved name) := by
  have hagree : Agree σ.table σ.env := Agree.run (Agree.start ht) hrun
  refine ⟨fun name hname => (hagree.resolved hname).symm, hagree.slots_nodup, ?_⟩
  intro inner σ' hinner hblock name hname
  have hagree' : Agree σ'.table σ'.env := hagree.run hblock
  obtain ⟨σ₁, hopen, hrest⟩ := Session.run_cons.mp hblock
  obtain ⟨σ₂, hmid, hrest⟩ := Session.run_append.mp hrest
  obtain ⟨σ₃, hclose, hnil⟩ := Session.run_cons.mp hrest
  cases hnil
  obtain ⟨fn, henv, hblocks, hbody⟩ :=
    Session.env_block hopen (Session.grown_of_balanced hinner hmid) hclose
  rw [(hagree'.resolved hname).1, (hagree.resolved hname).1, henv, Env.lookup_setFn hblocks hbody]

/-- `let x; fn f(y) { { let x; fn() { y; x } } }`, compiled up to the end of the inner body. -/
def nestedCaptures : List Op :=
  [.define "x", .enterFunction "f", .define "y", .openBlock, .define "x", .enterFunction "",
    .resolve "y", .resolve "x"]

/-- Two functions deep, `x` is the block's `x` and not the global one, `f` is the function between,
and `len` is the builtin. -/
theorem resolve_denotes_innermost_nestedCaptures :
    ((Session.start (({} : Table).defineBuiltin 0 "len")).run nestedCaptures).map
      (fun σ => ["x", "y", "f", "len", "z"].map σ.table.resolved) =
    some [some (.slot 1 1), some (.slot 1 0), some (.self 1), some (.builtin 0), none] := by
  have ht : (({} : Table).defineBuiltin 0 "len").IsRoot := Table.IsRoot.new.defineBuiltin 0 "len"
  obtain ⟨σ, hσ⟩ : ∃ σ, (Session.start (({} : Table).defineBuiltin 0 "len")).run nestedCaptures =
      some σ := isSome_iff_exists.mp (by decide)
  have hres := (resolve_denotes_innermost ht hσ).1
  have henv : ((Session.start (({} : Table).defineBuiltin 0 "len")).run nestedCaptures).map
      (fun σ => ["x", "y", "f", "len", "z"].map σ.env.lookup) =
      some [some (.slot 1 1), some (.slot 1 0), some (.self 1), some (.builtin 0), none] := by
    decide
  rw [hσ] at henv ⊢
  rw [← henv]
  simp only [map_some, map_cons, map_nil]
  rw [(hres "x" (by decide)).2, (hres "y" (by decide)).2, (hres "f" (by decide)).2,
    (hres "len" (by decide)).2, (hres "z" (by decide)).2]

end Mutant.Compiler
