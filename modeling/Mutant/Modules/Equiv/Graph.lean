import Mutant.Modules.ImportGraph

/-!
# The loader walks the import graph in post-order

`Good` is what holds of the walker between two visits, `trail` being the files under way.  A visit
keeps it, and adds the visited file to the order (`visit_spec`, from `visitImports_spec` by
induction on the fuel); with fuel for every file that is still unseen it answers
(`visit_isSome`).
-/

namespace Mutant.Modules

open Function List PostOrder Relation

variable {a b : String} {mod : Module}

variable {h : Host} {a₀ path display absolute : String} {trail : List String} {w w' : Walker}

/-! ### Files -/

/-- A file is read as a module of that path, with no imports yet. -/
theorem readModule_path (hmod : readModule h a = .ok mod) :
    mod.path = a ∧ mod.display = h.displayPath a ∧ mod.imports = [] := by
  unfold readModule at hmod
  split at hmod
  · cases hmod
  · split at hmod
    · cases hmod
    · cases hmod
      exact ⟨rfl, rfl, rfl⟩

/-- Two spellings of one file hold the same program. -/
theorem readModule_sameFile
    (hab : h.canonicalKey a = h.canonicalKey b) (hmod : readModule h a = .ok mod) :
    ∃ mod', readModule h b = .ok mod' ∧ mod'.program = mod.program := by
  unfold readModule at hmod ⊢
  rw [h.readFile_sameFile a b hab] at hmod
  split at hmod
  · cases hmod
  · split at hmod
    · cases hmod
    · cases hmod
      exact ⟨_, rfl, rfl⟩

/-- A file that cannot be read has a defect. -/
theorem readModule_defect {e : LoadError} (hmod : readModule h a = .error e) : h.Defect a e := by
  unfold readModule at hmod
  split at hmod
  · next hread => cases hmod; exact .read hread
  · next hread =>
    split at hmod
    · next hpar => cases hmod; exact .parse hread hpar
    · cases hmod

theorem Host.Imports.file (hab : h.Imports a b) :
    h.FileImports (h.canonicalKey a) (h.canonicalKey b) := ⟨a, b, rfl, rfl, hab⟩

/-- What a file imports can be read off any of its spellings. -/
theorem Host.FileImports.at {k : String} (hk : h.FileImports (h.canonicalKey a) k) :
    ∃ b, h.canonicalKey b = k ∧ h.Imports a b := by
  obtain ⟨a', b', ha', rfl, mod, hmod, imp, spelling, himp, hpath, hres⟩ := hk
  obtain ⟨mod', hmod', hprogram⟩ := readModule_sameFile ha' hmod
  obtain ⟨b, hb, hkey⟩ := h.resolve_sameFile a' a spelling b' ha' hres
  exact ⟨b, hkey, mod', hmod', imp, spelling, by rw [hprogram]; exact himp, hpath, hb⟩

theorem file_reaches (hab : ReflTransGen h.Imports a b) :
    ReflTransGen h.FileImports (h.canonicalKey a) (h.canonicalKey b) :=
  hab.lift h.canonicalKey fun _ _ => Host.Imports.file

/-! ### The files under way -/

/-- The files under way: the entry first, each importing the next. -/
def Trail (h : Host) (a₀ : String) (trail : List String) : Prop :=
  trail.head? = some a₀ ∧ List.IsChain h.Imports trail

/-- A trail goes on along an import. -/
theorem Trail.snoc (ht : Trail h a₀ (trail ++ [path])) (hb : h.Imports path b) :
    Trail h a₀ (trail ++ [path] ++ [b]) := by
  refine ⟨?_, ?_⟩
  · rw [head?_append, ht.1]
    rfl
  · rw [isChain_append]
    refine ⟨ht.2, isChain_singleton b, ?_⟩
    intro x hx y hy
    obtain rfl : path = x := by simpa using hx
    obtain rfl : b = y := by simpa using hy
    exact hb

/-- The files of a trail can be reached. -/
theorem Trail.reaches_mem (ht : Trail h a₀ trail) (ha : a ∈ trail) :
    ReflTransGen h.Imports a₀ a := by
  obtain ⟨hhead, hch⟩ := ht
  cases trail with
  | nil => cases ha
  | cons b rest =>
    obtain rfl : b = a₀ := by simpa using hhead
    exact reaches_of_isChain hch ha

theorem Trail.reaches (ht : Trail h a₀ (trail ++ [path])) : ReflTransGen h.Imports a₀ path :=
  ht.reaches_mem (by simp)

/-- What holds of the walker while the files of `trail` are under way. -/
structure Good (h : Host) (a₀ : String) (trail : List String) (w : Walker) : Prop where
  stack : w.stack = trail.map h.displayPath
  onStack : ∀ k, w.state k = .onStack ↔ k ∈ trail.map h.canonicalKey
  done : ∀ k, w.state k = .done ↔ k ∈ w.order.map (Module.key h)
  nodup : (w.order.map (Module.key h)).Nodup
  ordered : PostOrdered h.FileImports (w.order.map (Module.key h))
  reached : ∀ m ∈ w.order, ReflTransGen h.FileImports (h.canonicalKey a₀) (m.key h)
  loaded : ∀ m ∈ w.order, h.IsLoaded m

/-- The walker as it starts. -/
theorem good_start : Good h a₀ [] .start where
  stack := rfl
  onStack k := by simp [Walker.start]
  done k := by simp [Walker.start]
  nodup := nodup_nil
  ordered := postOrdered_nil
  reached m hm := by cases hm
  loaded m hm := by cases hm

/-- A file that was not seen is under way once it is entered. -/
theorem Good.enter (hg : Good h a₀ trail w) (hmod : readModule h absolute = .ok mod)
    (huns : w.state (h.canonicalKey absolute) = .unseen) :
    Good h a₀ (trail ++ [absolute]) (w.enter (h.canonicalKey absolute) mod) where
  stack := by
    change w.stack ++ [mod.display] = _
    rw [hg.stack, (readModule_path hmod).2.1]
    simp
  onStack k := by
    change update w.state _ _ k = _ ↔ _
    by_cases hk : k = h.canonicalKey absolute
    · subst hk
      simp
    · rw [update_of_ne hk, hg.onStack]
      simp [hk]
  done k := by
    change update w.state _ _ k = _ ↔ k ∈ w.order.map _
    by_cases hk : k = h.canonicalKey absolute
    · subst hk
      rw [← hg.done, huns]
      simp
    · rw [update_of_ne hk, hg.done]
  nodup := hg.nodup
  ordered := hg.ordered
  reached := hg.reached
  loaded := hg.loaded

/-- A file all of whose imports are in the order may be added to it. -/
theorem Good.leave (ht : Trail h a₀ (trail ++ [absolute]))
    (hg : Good h a₀ (trail ++ [absolute]) w) (hpath : mod.path = absolute)
    (hloaded : h.IsLoaded mod) (hfresh : h.canonicalKey absolute ∉ trail.map h.canonicalKey)
    (himps : ∀ b, h.Imports absolute b → h.canonicalKey b ∈ w.order.map (Module.key h)) :
    Good h a₀ trail (w.leave (h.canonicalKey absolute) mod) where
  stack := by
    change w.stack.dropLast = _
    rw [hg.stack]
    simp
  onStack k := by
    change update w.state _ _ k = _ ↔ _
    by_cases hk : k = h.canonicalKey absolute
    · subst hk
      simpa using hfresh
    · rw [update_of_ne hk, hg.onStack]
      simp [hk]
  done k := by
    change update w.state _ _ k = _ ↔ k ∈ (w.order ++ [mod]).map _
    by_cases hk : k = h.canonicalKey absolute
    · subst hk
      simp [Module.key, hpath]
    · rw [update_of_ne hk, hg.done]
      simp [Module.key, hpath, hk]
  nodup := by
    change ((w.order ++ [mod]).map _).Nodup
    have hon : w.state (h.canonicalKey absolute) = .onStack := by
      rw [hg.onStack]
      simp
    -- it is under way, so it is not done
    have hnot : h.canonicalKey absolute ∉ w.order.map (Module.key h) := by
      rw [← hg.done, hon]
      decide
    rw [map_append, nodup_append']
    refine ⟨hg.nodup, nodup_singleton _, ?_⟩
    simpa [Module.key, hpath] using hnot
  ordered := by
    change PostOrdered _ ((w.order ++ [mod]).map _)
    rw [map_append]
    refine hg.ordered.snoc ?_
    intro k hk
    obtain ⟨b, rfl, hb⟩ := Host.FileImports.at (a := absolute) (by rw [← hpath]; exact hk)
    exact himps b hb
  reached m hm := by
    rcases mem_append.mp hm with hm | hm
    · exact hg.reached m hm
    · obtain rfl : m = mod := by simpa using hm
      rw [Module.key, hpath]
      exact file_reaches ht.reaches
  loaded m hm := by
    rcases mem_append.mp hm with hm | hm
    · exact hg.loaded m hm
    · obtain rfl : m = mod := by simpa using hm
      exact hloaded

/-! ### What a visit answers -/

/-- An error is a cycle that is there, or a defect of a file that can be reached. -/
def Reported (h : Host) (a₀ : String) (e : LoadError) : Prop :=
  (∃ front again back last, e = .cycle ((front ++ again :: back ++ [last]).map h.displayPath) ∧
    Trail h a₀ (front ++ again :: back ++ [last]) ∧
    h.canonicalKey again = h.canonicalKey last) ∨
  ∃ a, ReflTransGen h.Imports a₀ a ∧ h.Defect a e

/-- A visit of `absolute` keeps the walker good and leaves the file in the order, last if it was
not seen before. -/
def Answered (h : Host) (a₀ : String) (trail : List String) (w : Walker) (absolute : String) :
    Except LoadError (Option Module × Walker) → Prop
  | .ok (mod, w') => Good h a₀ trail w' ∧ w.order <+: w'.order ∧
      h.canonicalKey absolute ∈ w'.order.map (Module.key h) ∧
      (w.state (h.canonicalKey absolute) = .unseen →
        ∃ front m, w'.order = front ++ [m] ∧ mod = some m ∧ m.path = absolute)
  | .error e => Reported h a₀ e

/-- The loop over the imports of `path` resolves them all and leaves their files in the order. -/
def ImportsAnswered (h : Host) (a₀ : String) (trail : List String) (path : String)
    (statements : List Statement) (w : Walker) :
    Except LoadError (List ResolvedImport × Walker) → Prop
  | .ok (imports, w') => imports = h.resolvedImports path statements ∧ Good h a₀ trail w' ∧
      w.order <+: w'.order ∧
      ∀ i ∈ imports, h.canonicalKey i.path ∈ w'.order.map (Module.key h)
  | .error e => Reported h a₀ e

theorem resolvedImports_append (pre after : List Statement) :
    h.resolvedImports path (pre ++ after) =
      h.resolvedImports path pre ++ h.resolvedImports path after := by
  unfold Host.resolvedImports
  rw [filterMap_append]

theorem resolvedImports_ok {imp : ImportStatement} {spell tgt : String}
    (hpath : imp.path = some spell) (hres : h.resolve spell (h.dir path) = .ok tgt) :
    h.resolvedImports path [.importModule imp] = [⟨imp.bindsName, spell, tgt⟩] := by
  simp [Host.resolvedImports, hpath, hres, Except.toOption]

/-- Every import of a file is among those that are resolved. -/
theorem Host.Imports.mem_resolvedImports
    (hmod : readModule h path = .ok mod) (hb : h.Imports path b) :
    ∃ i ∈ h.resolvedImports path mod.program.statements, i.path = b := by
  obtain ⟨mod', hmod', imp, spelling, himp, hpath, hres⟩ := hb
  obtain rfl : mod = mod' := by
    rw [hmod] at hmod'
    cases hmod'
    rfl
  obtain ⟨pre, after, hspl⟩ := append_of_mem himp
  refine ⟨⟨imp.bindsName, spelling, b⟩, ?_, rfl⟩
  have hcons : pre ++ .importModule imp :: after = pre ++ ([.importModule imp] ++ after) := rfl
  rw [hspl, hcons, resolvedImports_append, resolvedImports_append, resolvedImports_ok hpath hres]
  simp

/-! ### The loop over the imports -/

/-- No answer and an error are passed on; with an answer the walk goes on. -/
def andThen {α β : Type} (answer : Walked α) (next : α → Walked β) : Walked β :=
  match answer with
  | none => none
  | some (.error e) => some (.error e)
  | some (.ok a) => next a

section

variable {α β : Type} {answer ans' : Walked α} {next next' : α → Walked β} {r : Except LoadError β}

/-- A second step is taken only after a first that succeeds. -/
theorem andThen_cases (hrun : andThen answer next = some r) :
    (∃ e, answer = some (.error e) ∧ r = .error e) ∨
      ∃ a, answer = some (.ok a) ∧ next a = some r := by
  unfold andThen at hrun
  split at hrun
  · cases hrun
  · cases hrun
    exact .inl ⟨_, rfl, rfl⟩
  · exact .inr ⟨_, rfl, hrun⟩

/-- Where the answers no longer depend on the fuel, neither does what follows them. -/
theorem andThen_settles {n : Nat} {answer : Nat → Walked α} {next : Nat → α → Walked β}
    (hans : ∃ r, ∀ fuel ≥ n, answer fuel = some r)
    (hnext : ∀ a, answer n = some (.ok a) → ∃ r, ∀ fuel ≥ n, next fuel a = some r) :
    ∃ r, ∀ fuel ≥ n, andThen (answer fuel) (next fuel) = some r := by
  obtain ⟨e | a, ha⟩ := hans
  · exact ⟨.error e, fun fuel hfuel => by rw [ha fuel hfuel]; rfl⟩
  · obtain ⟨r, hr⟩ := hnext a (ha n (Nat.le_refl n))
    exact ⟨r, fun fuel hfuel => by rw [ha fuel hfuel]; exact hr fuel hfuel⟩

end

/-- Why the loop stops at an import. -/
inductive Stops (h : Host) (path display : String) (boundBy : List (String × String))
    (imp : ImportStatement) (spelling : String) : LoadError → Prop
  | bound {previous : String} (hlookup : boundBy.lookup imp.bindsName = some previous) :
    Stops h path display boundBy imp spelling
      (.duplicateNamespace display imp.bindsName previous spelling)
  | unresolved {e : ResolveError} (hresolve : h.resolve spelling (h.dir path) = .error e) :
    Stops h path display boundBy imp spelling (.resolve (decorateResolveError display e))

/-- What the loop does with a statement, whatever a visit does: it passes over it, it stops with an
error, or it visits the file the statement imports. -/
theorem visitImports_cons (s : Statement) (rest : List Statement)
    (bnd : List (String × String)) (imps : List ResolvedImport) (w : Walker) :
    (h.resolvedImports path [s] = [] ∧ ∀ visit,
      visitImports h visit path display (s :: rest) bnd imps w =
        visitImports h visit path display rest bnd imps w) ∨
    ∃ imp spell, s = .importModule imp ∧ imp.path = some spell ∧
      ((∃ e, Stops h path display bnd imp spell e ∧ ∀ visit,
        visitImports h visit path display (s :: rest) bnd imps w = some (.error e)) ∨
      ∃ tgt, h.resolve spell (h.dir path) = .ok tgt ∧ ∀ visit : Visit,
        visitImports h visit path display (s :: rest) bnd imps w =
          andThen (visit tgt w) fun found =>
            visitImports h visit path display rest ((imp.bindsName, spell) :: bnd)
              (imps ++ [⟨imp.bindsName, spell, tgt⟩]) found.2) := by
  cases s with
  | other => exact .inl ⟨rfl, fun _ => rfl⟩
  | importModule imp =>
    have hrun (visit : Visit) := visitImports.eq_3 h visit path display bnd imps w imp rest
    cases hpath : imp.path with
    | none =>
      rw [hpath] at hrun
      exact .inl ⟨by simp [Host.resolvedImports, hpath], hrun⟩
    | some spell =>
      rw [hpath] at hrun
      refine .inr ⟨imp, spell, rfl, hpath, ?_⟩
      -- a name bound twice is refused before its file is looked for
      cases hlook : bnd.lookup imp.bindsName with
      | some prev =>
        simp only [hlook] at hrun
        exact .inl ⟨_, .bound hlook, hrun⟩
      | none =>
        cases hres : h.resolve spell (h.dir path) with
        | error e =>
          simp only [hlook, hres] at hrun
          exact .inl ⟨_, .unresolved hres, hrun⟩
        | ok tgt =>
          simp only [hlook, hres] at hrun
          refine .inr ⟨tgt, rfl, fun visit => (hrun visit).trans ?_⟩
          rcases visit tgt w with _ | _ | _ <;> rfl

/-- Visiting the imports of a file, statement by statement. -/
theorem visitImports_spec {visit : Visit}
    (hmod : readModule h path = .ok mod) (ht : Trail h a₀ (trail ++ [path]))
    (hvis : ∀ target w r, h.Imports path target → Good h a₀ (trail ++ [path]) w →
      visit target w = some r → Answered h a₀ (trail ++ [path]) w target r)
    (rest pre : List Statement) (bnd : List (String × String))
    (imps : List ResolvedImport) (w : Walker) (r) (hspl : mod.program.statements = pre ++ rest)
    (hbd : ∀ name spelling, bnd.lookup name = some spelling → ∃ imp,
      .importModule imp ∈ pre ∧ imp.bindsName = name ∧ imp.path = some spelling)
    (himps : imps = h.resolvedImports path pre)
    (hseen : ∀ i ∈ imps, h.canonicalKey i.path ∈ w.order.map (Module.key h))
    (hg : Good h a₀ (trail ++ [path]) w)
    (hrun : visitImports h visit path mod.display rest bnd imps w = some r) :
    ImportsAnswered h a₀ (trail ++ [path]) path mod.program.statements w r := by
  induction rest generalizing pre bnd imps w with
  | nil =>
    cases hrun
    rw [append_nil] at hspl
    exact ⟨by rw [himps, hspl], hg, prefix_refl _, hseen⟩
  | cons s rest ih =>
    have hspl' : mod.program.statements = pre ++ [s] ++ rest := by rw [hspl]; simp
    have hmem : s ∈ mod.program.statements := by rw [hspl]; simp
    -- what is bound before `s` is bound before the statement after it
    have hbd' : ∀ name spelling, bnd.lookup name = some spelling → ∃ imp,
        .importModule imp ∈ pre ++ [s] ∧ imp.bindsName = name ∧ imp.path = some spelling := by
      intro name spelling hlook
      obtain ⟨imp, himp, hrest⟩ := hbd name spelling hlook
      exact ⟨imp, mem_append_left _ himp, hrest⟩
    rcases visitImports_cons s rest bnd imps w with ⟨hnone, hstep⟩ |
      ⟨imp, spelling, rfl, hpath, ⟨e, hsps, hstep⟩ | ⟨target, hres, hstep⟩⟩
    · -- nothing to import here
      rw [hstep visit] at hrun
      refine ih (pre ++ [s]) bnd imps w hspl' hbd' ?_ hseen hg hrun
      rw [himps, resolvedImports_append, hnone, append_nil]
    · obtain rfl : _ = r := Option.some.inj ((hstep visit).symm.trans hrun)
      refine .inr ⟨path, ht.reaches, ?_⟩
      cases hsps with
      | bound hlook =>
        obtain ⟨first, hfst, hname, hfirstPath⟩ := hbd _ _ hlook
        refine .duplicateNamespace hmod ?_ hfst hname hfirstPath hpath
        rw [hspl']
        exact prefix_append _ _
      | unresolved hres => exact .resolve hmod hmem hpath hres
    · have himp : h.Imports path target := ⟨mod, hmod, imp, spelling, hmem, hpath, hres⟩
      rw [hstep visit] at hrun
      obtain ⟨e, hv, rfl⟩ | ⟨⟨found, w₁⟩, hv, hrun⟩ := andThen_cases hrun
      · exact hvis target w _ himp hg hv
      · obtain ⟨hg₁, hfr, htgt, -⟩ := hvis target w _ himp hg hv
        have hgrow := (hfr.map (Module.key h)).subset
        have hfinal := ih (pre ++ [.importModule imp]) _ _ w₁ hspl' ?_ ?_ ?_ hg₁ hrun
        · cases r with
          | error e => exact hfinal
          | ok res =>
            obtain ⟨hall, hg₂, hfr₂, hseen₂⟩ := hfinal
            exact ⟨hall, hg₂, hfr.trans hfr₂, hseen₂⟩
        · intro name bound hname
          rw [lookup_cons] at hname
          split at hname
          · next heq =>
            cases hname
            exact ⟨imp, by simp, (beq_iff_eq.mp heq).symm, hpath⟩
          · exact hbd' name bound hname
        · rw [himps, resolvedImports_append, resolvedImports_ok hpath hres]
        · intro i hi
          rcases mem_append.mp hi with hi | hi
          · exact hgrow (hseen i hi)
          · obtain rfl : i = ⟨imp.bindsName, spelling, target⟩ := by simpa using hi
            exact htgt

/-! ### A visit -/

/-- A file met again while it is under way closes a cycle. -/
theorem Good.reported (hg : Good h a₀ trail w) (ht : Trail h a₀ (trail ++ [absolute]))
    (hon : w.state (h.canonicalKey absolute) = .onStack) :
    Reported h a₀ (.cycle (w.stack ++ [h.displayPath absolute])) := by
  obtain ⟨again, hag, hkey⟩ := mem_map.mp ((hg.onStack _).mp hon)
  obtain ⟨front, back, rfl⟩ := append_of_mem hag
  refine .inl ⟨front, again, back, absolute, ?_, ht, hkey⟩
  rw [hg.stack]
  simp

/-- What a visit does, whatever fuel is left: the file was walked already, it is under way, it
cannot be read, or its imports are walked. -/
theorem visit_succ (h : Host) (absolute : String) (w : Walker) :
    (w.state (h.canonicalKey absolute) = .done ∧ ∀ fuel,
      visit h (fuel + 1) absolute w = some (.ok (w.byKey (h.canonicalKey absolute), w))) ∨
    (w.state (h.canonicalKey absolute) = .onStack ∧ ∀ fuel, visit h (fuel + 1) absolute w =
        some (.error (.cycle (w.stack ++ [h.displayPath absolute])))) ∨
    (∃ e, readModule h absolute = .error e ∧ ∀ fuel,
      visit h (fuel + 1) absolute w = some (.error e)) ∨
    ∃ mod, w.state (h.canonicalKey absolute) = .unseen ∧ readModule h absolute = .ok mod ∧
      ∀ fuel, visit h (fuel + 1) absolute w =
        andThen (visitImports h (visit h fuel) absolute mod.display mod.program.statements [] []
          (w.enter (h.canonicalKey absolute) mod)) fun walked =>
            some (.ok (some { mod with imports := walked.1 },
              walked.2.leave (h.canonicalKey absolute) { mod with imports := walked.1 })) := by
  have hrun (fuel : Nat) := visit.eq_2 h absolute w fuel
  cases hstate : w.state (h.canonicalKey absolute) with
  | done =>
    rw [hstate] at hrun
    exact .inl ⟨rfl, hrun⟩
  | onStack =>
    rw [hstate] at hrun
    exact .inr (.inl ⟨rfl, hrun⟩)
  | unseen =>
    cases hmod : readModule h absolute with
    | error e =>
      simp only [hstate, hmod] at hrun
      exact .inr (.inr (.inl ⟨e, rfl, hrun⟩))
    | ok mod =>
      simp only [hstate, hmod] at hrun
      -- the module is read from the path it names
      obtain rfl := (readModule_path hmod).1
      refine .inr (.inr (.inr ⟨mod, rfl, rfl, fun fuel => (hrun fuel).trans ?_⟩))
      rcases visitImports h (visit h fuel) mod.path mod.display mod.program.statements [] [] _
        with _ | _ | _ <;> rfl

/-- A visit that answers keeps `Good`, and either has put its file in the order or names a defect.
-/
theorem visit_spec (fuel : Nat) (trail : List String) (absolute : String) (w : Walker) (r)
    (ht : Trail h a₀ (trail ++ [absolute])) (hg : Good h a₀ trail w)
    (hrun : visit h fuel absolute w = some r) : Answered h a₀ trail w absolute r := by
  induction fuel generalizing trail absolute w r with
  | zero => cases hrun
  | succ fuel ih =>
    -- seen before, under way, unreadable, or new
    rcases visit_succ h absolute w with ⟨hdone, hstep⟩ | ⟨hon, hstep⟩ | ⟨e, hmod, hstep⟩ |
      ⟨mod, huns, hmod, hstep⟩
    · obtain rfl : _ = r := Option.some.inj ((hstep fuel).symm.trans hrun)
      refine ⟨hg, prefix_refl _, (hg.done _).mp hdone, ?_⟩
      intro huns
      rw [hdone] at huns
      cases huns
    · obtain rfl : _ = r := Option.some.inj ((hstep fuel).symm.trans hrun)
      exact hg.reported ht hon
    · obtain rfl : _ = r := Option.some.inj ((hstep fuel).symm.trans hrun)
      exact .inr ⟨absolute, ht.reaches, readModule_defect hmod⟩
    · obtain ⟨hpath, -, -⟩ := readModule_path hmod
      have hanswered := fun answer => visitImports_spec hmod ht
        (fun tgt w r himp hg hv => ih _ tgt w r (ht.snoc himp) hg hv)
        _ [] [] [] _ answer rfl (by simp) rfl (by simp) (hg.enter hmod huns)
      rw [hstep fuel] at hrun
      obtain ⟨e, hloop, rfl⟩ | ⟨⟨imports, w₁⟩, hloop, hrun⟩ := andThen_cases hrun
      · exact hanswered _ hloop
      · cases hrun
        obtain ⟨himps, hg₁, hfr, hseen⟩ := hanswered _ hloop
        have hfresh : h.canonicalKey absolute ∉ trail.map h.canonicalKey := by
          rw [← hg.onStack, huns]
          decide
        have hpath' : { mod with imports := imports }.path = absolute := hpath
        refine ⟨hg₁.leave ht hpath' ?_ hfresh ?_, ?_, ?_, ?_⟩
        · exact ⟨mod, by rw [hpath', hmod], by rw [himps, hpath]⟩
        · intro b hb
          obtain ⟨i, hi, rfl⟩ := hb.mem_resolvedImports hmod
          exact hseen i (by rw [himps]; exact hi)
        · exact hfr.trans (prefix_append _ _)
        · simp [Walker.leave, Module.key, hpath]
        · intro _
          exact ⟨_, _, rfl, rfl, hpath'⟩

/-- The files that can be reached and were not seen. -/
def unseen (h : Host) (a₀ : String) (w : Walker) : Set String :=
  {k | ReflTransGen h.FileImports (h.canonicalKey a₀) k ∧ w.state k = .unseen}

/-- Files do not become unseen. -/
theorem Good.unseen_subset (hg : Good h a₀ trail w) (hg' : Good h a₀ trail w')
    (hgr : w.order <+: w'.order) : unseen h a₀ w' ⊆ unseen h a₀ w := by
  rintro k ⟨hrch, hk⟩
  refine ⟨hrch, ?_⟩
  cases hstate : w.state k with
  | unseen => rfl
  | onStack =>
    rw [hg.onStack, ← hg'.onStack, hk] at hstate
    cases hstate
  | done =>
    have hdone := (hgr.map (Module.key h)).subset ((hg.done k).mp hstate)
    rw [← hg'.done, hk] at hdone
    cases hdone

/-- Entering a file makes none unseen. -/
theorem unseen_enter_subset (huns : w.state (h.canonicalKey absolute) = .unseen) :
    unseen h a₀ (w.enter (h.canonicalKey absolute) mod) ⊆ unseen h a₀ w := by
  rintro k ⟨hrch, hk⟩
  refine ⟨hrch, ?_⟩
  change update w.state _ _ k = _ at hk
  by_cases heq : k = h.canonicalKey absolute
  · rw [heq]; exact huns
  · rwa [update_of_ne heq] at hk

/-- A visit leaves one file less to be seen. -/
theorem unseen_enter_lt (ht : Trail h a₀ (trail ++ [absolute]))
    (huns : w.state (h.canonicalKey absolute) = .unseen) (hfin : (unseen h a₀ w).Finite) :
    (unseen h a₀ (w.enter (h.canonicalKey absolute) mod)).ncard < (unseen h a₀ w).ncard := by
  refine Set.ncard_lt_ncard ?_ hfin
  refine (Set.ssubset_iff_of_subset (unseen_enter_subset huns)).mpr ?_
  refine ⟨h.canonicalKey absolute, ⟨file_reaches ht.reaches, huns⟩, ?_⟩
  rintro ⟨-, hk⟩
  change update w.state _ _ _ = _ at hk
  rw [update_self] at hk
  cases hk

/-- The loop answers when each visit it makes does. -/
theorem visitImports_settles {n : Nat} {w₀ : Walker} (hmod : readModule h path = .ok mod)
    (ht : Trail h a₀ (trail ++ [path]))
    (hvis : ∀ target w, h.Imports path target → Good h a₀ (trail ++ [path]) w →
      w₀.order <+: w.order → ∃ r, ∀ fuel ≥ n, visit h fuel target w = some r)
    (rest : List Statement) (hsub : rest ⊆ mod.program.statements)
    (bnd : List (String × String)) (imps : List ResolvedImport) (w : Walker)
    (hg : Good h a₀ (trail ++ [path]) w) (hgr : w₀.order <+: w.order) :
    ∃ r, ∀ fuel ≥ n,
      visitImports h (visit h fuel) path mod.display rest bnd imps w = some r := by
  induction rest generalizing bnd imps w with
  | nil => exact ⟨_, fun _ _ => rfl⟩
  | cons s rest ih =>
    have hsub' : rest ⊆ mod.program.statements := Subset.trans (subset_cons_self s rest) hsub
    rcases visitImports_cons s rest bnd imps w with ⟨-, hstep⟩ |
      ⟨imp, spelling, rfl, hpath, ⟨e, -, hstep⟩ | ⟨target, hres, hstep⟩⟩
    · obtain ⟨r, hr⟩ := ih hsub' bnd imps w hg hgr
      exact ⟨r, fun fuel hfuel => (hstep _).trans (hr fuel hfuel)⟩
    · exact ⟨_, fun _ _ => hstep _⟩
    · have himp : h.Imports path target :=
        ⟨mod, hmod, imp, spelling, hsub mem_cons_self, hpath, hres⟩
      simp only [hstep]
      -- the visit settles, and so do the statements after it
      refine andThen_settles (hvis target w himp hg hgr) fun ⟨found, w₁⟩ hv => ?_
      obtain ⟨hg₁, hfr, -⟩ := visit_spec n _ target w _ (ht.snoc himp) hg hv
      exact ih hsub' _ _ w₁ hg₁ (hgr.trans hfr)

/-- With more fuel than files to be seen, a visit answers, and with any more the answer is the
same. -/
theorem visit_settles (n : Nat) (trail : List String) (absolute : String) (w : Walker)
    (ht : Trail h a₀ (trail ++ [absolute])) (hg : Good h a₀ trail w)
    (hfin : (unseen h a₀ w).Finite) (hn : (unseen h a₀ w).ncard < n) :
    ∃ r, ∀ fuel ≥ n, visit h fuel absolute w = some r := by
  induction n generalizing trail absolute w with
  | zero => omega
  | succ n ih =>
    suffices hsucc : ∃ r, ∀ fuel ≥ n, visit h (fuel + 1) absolute w = some r by
      obtain ⟨r, hr⟩ := hsucc
      refine ⟨r, fun fuel hfuel => ?_⟩
      obtain ⟨fuel, rfl⟩ := Nat.exists_eq_add_of_le' (Nat.le_trans (Nat.le_add_left 1 n) hfuel)
      exact hr fuel (Nat.le_of_succ_le_succ hfuel)
    rcases visit_succ h absolute w with ⟨-, hstep⟩ | ⟨-, hstep⟩ | ⟨e, -, hstep⟩ |
      ⟨mod, huns, hmod, hstep⟩
    · exact ⟨_, fun fuel _ => hstep fuel⟩
    · exact ⟨_, fun fuel _ => hstep fuel⟩
    · exact ⟨_, fun fuel _ => hstep fuel⟩
    · have hg₁ := hg.enter hmod huns
      have hsub : unseen h a₀ (w.enter (h.canonicalKey absolute) mod) ⊆ unseen h a₀ w :=
        unseen_enter_subset huns
      have hless : (unseen h a₀ (w.enter (h.canonicalKey absolute) mod)).ncard <
          (unseen h a₀ w).ncard := unseen_enter_lt ht huns hfin
      simp only [hstep]
      refine andThen_settles ?_ fun _ _ => ⟨_, fun _ _ => rfl⟩
      -- the walkers the loop passes through have seen no less than the one it starts from
      refine visitImports_settles hmod ht ?_ _ (Subset.refl _) [] [] _ hg₁ (prefix_refl _)
      intro tgt w₁ himp hgood hgr
      have hsub₁ := hg₁.unseen_subset hgood hgr
      have hle := Set.ncard_le_ncard hsub₁ (hfin.subset hsub)
      exact ih _ tgt w₁ (ht.snoc himp) hgood (hfin.subset (hsub₁.trans hsub)) (by omega)

/-! ### Loading -/

theorem trail_entry : Trail h a₀ ([] ++ [a₀]) := ⟨rfl, isChain_singleton a₀⟩

variable {entry : String}

/-- What can be reached from the entry, by key. -/
theorem mem_reachable {k : String} (habs : h.abs entry = .ok a₀) :
    k ∈ h.reachable entry ↔ ReflTransGen h.FileImports (h.canonicalKey a₀) k := by
  constructor
  · rintro ⟨a, ha, hk⟩
    rw [habs] at ha
    cases ha
    exact hk
  · intro hk
    exact ⟨a₀, habs, hk⟩

/-- A walk that ends well has listed exactly the files that can be reached. -/
theorem Answered.inOrder {mod : Option Module} (habs : h.abs entry = .ok a₀)
    (hans : Answered h a₀ [] .start a₀ (.ok (mod, w))) : h.InOrder entry ⟨w.order, mod⟩ := by
  obtain ⟨hg, -, hmem, hlast⟩ := hans
  obtain ⟨front, root, hord, rfl, hroot⟩ := hlast rfl
  refine ⟨hg.nodup, ?_, hg.ordered, hg.loaded, ⟨front, root, hord, rfl, by rw [hroot, habs]⟩⟩
  intro k
  rw [mem_reachable habs]
  constructor
  · intro hk
    obtain ⟨m, hm, rfl⟩ := mem_map.mp hk
    exact hg.reached m hm
  · exact hg.ordered.mem_of_reaches hmem

/-- Files in order have no cycle among them. -/
theorem Host.InOrder.not_cyclic {g : Graph} (hg : h.InOrder entry g) : ¬ h.Cyclic entry := by
  rintro ⟨k, hk, hcycle⟩
  exact hg.ordered.not_onCycle hg.nodup ((hg.complete k).mpr hk) hcycle

/-- The chain of a reported cycle runs through files that can be reached, and closes a cycle of
files. -/
theorem Host.ClosesCycle.cyclic {ch : List String}
    (hch : h.ClosesCycle entry ch) : h.Cyclic entry := by
  obtain ⟨front, again, back, last, -, hhead, himps, hkey⟩ := hch
  have hfiles : IsChain h.FileImports
      (front.map h.canonicalKey ++ h.canonicalKey again :: back.map h.canonicalKey ++
        [h.canonicalKey again]) := by
    have hmap := isChain_map_of_isChain h.canonicalKey
      (fun a b => Host.Imports.file (h := h)) himps
    simpa [hkey] using hmap
  refine ⟨h.canonicalKey again, ?_, onCycle_of_isChain hfiles⟩
  cases habs : h.abs entry with
  | error reason =>
    rw [habs] at hhead
    simp [Except.toOption] at hhead
  | ok a₀ =>
    rw [habs] at hhead
    rw [mem_reachable habs]
    exact file_reaches (Trail.reaches_mem ⟨hhead, himps⟩ (by simp))

/-- What `Load` answers: the modules in order and no cycle, a cycle that is there, or an error of
another kind that is there. -/
theorem load_outcome {fuel : Nat} {r : Except LoadError Graph}
    (hrun : load h fuel entry = some r) : (∃ g, r = .ok g ∧ h.InOrder entry g) ∨
    (∃ ch, r = .error (.cycle ch) ∧ h.ClosesCycle entry ch) ∨
    ∃ e, r = .error e ∧ (∀ ch, e ≠ .cycle ch) ∧ h.Blames entry e := by
  unfold load at hrun
  cases habs : h.abs entry with
  | error reason =>
    rw [habs] at hrun
    cases hrun
    exact .inr (.inr ⟨_, rfl, by simp, .inl ⟨reason, habs, rfl⟩⟩)
  | ok a₀ =>
    rw [habs] at hrun
    dsimp only at hrun
    cases hv : visit h fuel a₀ .start with
    | none =>
      rw [hv] at hrun
      cases hrun
    | some answer =>
      rw [hv] at hrun
      have hans := visit_spec fuel [] a₀ .start answer trail_entry good_start hv
      cases answer with
      | ok res =>
        cases hrun
        exact .inl ⟨_, rfl, hans.inOrder habs⟩
      | error e =>
        cases hrun
        -- the trail that closed, or the file with the defect
        rcases hans with ⟨front, again, back, last, rfl, ht, hkey⟩ | ⟨a, ha, hdefect⟩
        · refine .inr (.inl ⟨_, rfl, front, again, back, last, rfl, ?_, ht.2, hkey⟩)
          rw [habs]
          exact ht.1
        · refine .inr (.inr ⟨e, rfl, ?_, .inr ⟨a₀, a, habs, ha, hdefect⟩⟩)
          rintro ch rfl
          cases hdefect

/-- With more fuel than files that can be reached, `Load` answers, and with any more the answer is
the same. -/
theorem load_terminates (hfin : (h.reachable entry).Finite) :
    ∃ r, ∀ fuel, (h.reachable entry).ncard < fuel → load h fuel entry = some r := by
  cases habs : h.abs entry with
  | error reason => exact ⟨_, fun fuel _ => by simp only [load, habs]; rfl⟩
  | ok a₀ =>
    have huns : unseen h a₀ .start = h.reachable entry := by
      ext k
      rw [mem_reachable habs]
      exact ⟨And.left, fun hk => ⟨hk, rfl⟩⟩
    rw [← huns] at hfin ⊢
    obtain ⟨answer, hall⟩ :=
      visit_settles _ [] a₀ .start trail_entry good_start hfin (Nat.lt_succ_self _)
    cases answer with
    | error e => exact ⟨_, fun fuel hfuel => by simp only [load, habs, hall fuel hfuel]; rfl⟩
    | ok res => exact ⟨_, fun fuel hfuel => by simp only [load, habs, hall fuel hfuel]; rfl⟩

/-- Loading over a finite import graph ends.  It lists every module that can be reached once, each
after all it imports and the entry last, or reports a cycle that is there, or blames a file for
something else; and it reports a cycle exactly when there is one and nothing else was blamed
first. -/
theorem load_modulesInOrder (h : Host) (entry : String) (hfin : (h.reachable entry).Finite) :
    ∃ r, (∀ fuel, (h.reachable entry).ncard < fuel → load h fuel entry = some r) ∧
      ((∃ g, r = .ok g ∧ h.InOrder entry g) ∨
        (∃ chain, r = .error (.cycle chain) ∧ h.ClosesCycle entry chain) ∨
        ∃ e, r = .error e ∧ (∀ chain, e ≠ .cycle chain) ∧ h.Blames entry e) ∧
      ((∃ chain, r = .error (.cycle chain)) ↔
        h.Cyclic entry ∧ ¬ ∃ e, r = .error e ∧ h.Blames entry e) := by
  obtain ⟨r, hr⟩ := load_terminates hfin
  have houtcome := load_outcome (hr _ (Nat.lt_succ_self _))
  refine ⟨r, hr, houtcome, ?_⟩
  rcases houtcome with ⟨g, rfl, hg⟩ | ⟨chain, rfl, hchain⟩ | ⟨e, rfl, hother, hblames⟩
  · -- in order: no cycle is reported, and there is none
    have hacyclic := hg.not_cyclic
    constructor
    · rintro ⟨chain, hchain⟩
      cases hchain
    · rintro ⟨hcyclic, -⟩
      exact absurd hcyclic hacyclic
  · refine ⟨fun _ => ⟨hchain.cyclic, ?_⟩, fun _ => ⟨chain, rfl⟩⟩
    rintro ⟨e, he, hblames⟩
    cases he
    rcases hblames with ⟨reason, -, he⟩ | ⟨_, _, -, -, hdefect⟩
    · cases he
    · cases hdefect
  · constructor
    · rintro ⟨chain, hchain⟩
      exact absurd (Except.error.inj hchain) (hother chain)
    · rintro ⟨-, hnone⟩
      exact absurd ⟨e, rfl, hblames⟩ hnone

/-- Three files: `main` imports `a` and `b`, and `a` imports `b` by another spelling of it. -/
def diamond : Host where
  abs path := .ok path
  dir _ := "."
  displayPath path := path
  canonicalKey path := if path = "B" then "b" else path
  readFile path := .ok (if path = "main" then [0] else if path = "a" then [1] else [2])
  parse source := .ok ⟨if source = [0] then
          [.importModule ⟨some "x", some "a"⟩, .other, .importModule ⟨some "y", some "b"⟩]
        else if source = [1] then [.importModule ⟨some "x", some "B"⟩]
        else [], [], [], []⟩
  resolve spelling _ := .ok spelling
  readFile_sameFile a b hab := by grind
  resolve_sameFile a b spelling target _ htarget := ⟨target, htarget, rfl⟩

/-- The files of the diamond. -/
theorem diamond_reachable : diamond.reachable "main" ⊆ {"main", "a", "b"} := by
  rintro k ⟨a, ha, hk⟩
  cases ha
  induction hk with
  | refl => simp [diamond]
  | tail _ hstep _ =>
    obtain ⟨a, b, -, rfl, mod, hmod, imp, spelling, himp, hpath, hres⟩ := hstep
    -- every import that is written anywhere names `a` or a spelling of `b`
    have hspelling : spelling ∈ ["a", "b", "B"] := by
      cases hmod
      grind
    cases hres
    simp only [mem_cons, not_mem_nil, or_false] at hspelling
    rcases hspelling with rfl | rfl | rfl <;> simp [diamond]

/-- Both spellings of `b` are one module, which comes first. -/
theorem load_modulesInOrder_diamond :
    ∃ g, diamond.InOrder "main" g ∧ g.modules.map Module.path = ["B", "a", "main"] := by
  have hfin : (diamond.reachable "main").Finite :=
    Set.Finite.subset (Set.toFinite _) diamond_reachable
  have hcard : (diamond.reachable "main").ncard < 4 := by
    have hle := Set.ncard_le_ncard diamond_reachable (Set.toFinite _)
    have hthree := Finset.card_le_three (a := "main") (b := "a") (c := "b")
    rw [← Set.ncard_coe_finset] at hthree
    simp only [Finset.coe_insert, Finset.coe_singleton] at hthree
    omega
  obtain ⟨r, hr, houtcome, -⟩ := load_modulesInOrder diamond "main" hfin
  have hrun := hr 4 hcard
  have hloads : ∃ g, load diamond 4 "main" = some (.ok g) ∧
      g.modules.map Module.path = ["B", "a", "main"] := ⟨_, rfl, rfl⟩
  obtain ⟨g, hload, hpaths⟩ := hloads
  rw [hload] at hrun
  cases hrun
  rcases houtcome with ⟨_, hg, hinOrder⟩ | ⟨_, hchain, -⟩ | ⟨_, herror, -⟩
  · cases hg
    exact ⟨g, hinOrder, hpaths⟩
  · cases hchain
  · cases herror

end Mutant.Modules
