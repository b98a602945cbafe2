import Mathlib.Data.List.Nodup
import Mutant.Modules.Link

/-!
# Lines and positions through linking

The loop of `Link` is put in closed form: the text is the chunks one after the other, and each
module's span, shift and offset are counted off the text before it (`link_eq`).  From there
`moduleLine` and `moduleAt` are computed at a module between those before and those after it.
-/

namespace Mutant.Modules

open List Mutant.Ast Lines

variable {linked : Linked} {entry : String} {line : Nat}

variable {paths : PathRules} {before after mods : List Module} {m : Module}

/-- The lines of a file.  An empty file is one empty line. -/
def sourceLines (source : Source) : List Source := split newline (chunk source)

/-! ### Chunks -/

theorem closed_chunk (src : Source) : Closed newline (chunk src) := by
  unfold chunk
  split_ifs with h
  · exact .inr h
  · exact closed_snoc src

theorem length_sourceLines (src : Source) :
    (sourceLines src).length = (chunk src).count newline := length_split (closed_chunk src)

theorem chunk_eq_append (src : Source) : ∃ tail, chunk src = src ++ tail := by
  unfold chunk
  split_ifs
  · exact ⟨[], by simp⟩
  · exact ⟨[newline], rfl⟩

/-- Every module takes up at least one line. -/
theorem sourceLines_pos (src : Source) : 0 < (sourceLines src).length := by
  have hne : chunk src ≠ [] := by
    unfold chunk
    split_ifs with h
    · rintro rfl
      cases h
    · simp
  exact length_pos_iff.mpr (split_ne_nil hne)

/-- The text of modules, one after the other. -/
def textOf (mods : List Module) : Source := mods.flatMap fun m => chunk m.source

/-- The lines above what follows `mods`. -/
def linesOf (mods : List Module) : Nat := (textOf mods).count newline

@[simp] theorem textOf_nil : textOf [] = [] := rfl

@[simp] theorem textOf_cons : textOf (m :: mods) = chunk m.source ++ textOf mods := rfl

@[simp] theorem textOf_append : textOf (before ++ after) = textOf before ++ textOf after :=
  flatMap_append

@[simp] theorem linesOf_nil : linesOf [] = 0 := rfl

@[simp] theorem linesOf_cons :
    linesOf (m :: mods) = (sourceLines m.source).length + linesOf mods := by
  rw [linesOf, textOf_cons, count_append, length_sourceLines, linesOf]

@[simp] theorem linesOf_append : linesOf (before ++ after) = linesOf before + linesOf after := by
  rw [linesOf, textOf_append, count_append, linesOf, linesOf]

theorem closed_textOf (mods : List Module) : Closed newline (textOf mods) := by
  induction mods with
  | nil => exact closed_nil
  | cons m mods ih => exact (closed_chunk m.source).append ih

theorem length_split_textOf (mods : List Module) :
    (split newline (textOf mods)).length = linesOf mods := length_split (closed_textOf mods)

/-! ### The loop of `Link` -/

/-- The spans of modules that start at `line`. -/
def spansFrom (line : Nat) : List Module → List ModuleSpan
  | [] => []
  | m :: rest => ⟨m.display, line⟩ :: spansFrom (line + (sourceLines m.source).length) rest

/-- The modules with their positions rebased, the first by `lines` and `offset`. -/
def rebasedFrom (lines offset : Nat) : List Module → List Module
  | [] => []
  | m :: rest =>
    { m with program := m.program.mapPositions (·.shift lines offset) } ::
      rebasedFrom (lines + (sourceLines m.source).length) (offset + (chunk m.source).length) rest

theorem spansFrom_append (line : Nat) (before after : List Module) :
    spansFrom line (before ++ after) =
      spansFrom line before ++ spansFrom (line + linesOf before) after := by
  induction before generalizing line with
  | nil => rfl
  | cons m before ih =>
    rw [cons_append, spansFrom, spansFrom, ih, linesOf_cons, Nat.add_assoc, cons_append]

/-- Modules are moved by what was linked before them. -/
theorem rebasedFrom_append (ls off : Nat) (before after : List Module) :
    rebasedFrom ls off (before ++ after) = rebasedFrom ls off before ++
      rebasedFrom (ls + linesOf before) (off + (textOf before).length) after := by
  induction before generalizing ls off with
  | nil => rfl
  | cons m before ih =>
    rw [cons_append, rebasedFrom, rebasedFrom, ih, linesOf_cons, textOf_cons,
      length_append, Nat.add_assoc, Nat.add_assoc, cons_append]

@[simp] theorem length_spansFrom (line : Nat) : (spansFrom line mods).length = mods.length := by
  induction mods generalizing line with
  | nil => rfl
  | cons m mods ih => simp [spansFrom, ih]

@[simp] theorem length_rebasedFrom (ls off : Nat) :
    (rebasedFrom ls off mods).length = mods.length := by
  induction mods generalizing ls off with
  | nil => rfl
  | cons m mods ih => simp [rebasedFrom, ih]

theorem shift_zero (p : Position) : p.shift 0 0 = p := by
  unfold Position.shift
  split_ifs <;> rfl

/-- Shifting by nothing changes nothing, so the early return is no special case. -/
theorem shiftPositions_eq (p : Program) (ls off : Nat) :
    p.shiftPositions ls off = p.mapPositions (·.shift ls off) := by
  unfold Program.shiftPositions
  split_ifs with h
  · obtain ⟨rfl, rfl⟩ := h
    simp [Program.mapPositions, shift_zero]
  · rfl

/-- The loop of `Link` in closed form. -/
theorem foldl_add (mods : List Module) (st : Linking) (hline : 0 < st.line) :
    mods.foldl Linking.add st =
      { text := st.text ++ textOf mods
        spans := st.spans ++ spansFrom st.line mods
        modules := st.modules ++ rebasedFrom (st.line - 1) st.offset mods
        line := st.line + linesOf mods
        offset := st.offset + (textOf mods).length } := by
  induction mods generalizing st with
  | nil => simp [spansFrom, rebasedFrom]
  | cons m mods ih =>
    have hnext : 0 < (st.add m).line := by
      change 0 < st.line + _
      omega
    rw [foldl_cons, ih _ hnext]
    have hlines : st.line + (chunk m.source).count newline - 1 =
        st.line - 1 + (sourceLines m.source).length := by
      rw [length_sourceLines]
      omega
    simp only [Linking.add, shiftPositions_eq, hlines, spansFrom, rebasedFrom, textOf_cons,
      linesOf_cons, append_assoc, length_append, cons_append, nil_append,
      length_sourceLines, Nat.add_assoc]

/-- What `Link` returns. -/
theorem link_eq {g : Graph} (h : g.link = some linked) :
    linked.sourceText = textOf g.modules ∧ linked.spans = spansFrom 1 g.modules ∧
      linked.modules = rebasedFrom 0 0 g.modules := by
  unfold Graph.link at h
  split_ifs at h with hemp
  · cases h
    rw [isEmpty_iff.mp hemp]
    exact ⟨rfl, rfl, rfl⟩
  · obtain ⟨entry, -, rfl⟩ := Option.map_eq_some_iff.mp h
    rw [foldl_add g.modules _ Nat.one_pos]
    simp

/-! ### The lookups, at one module of the list -/

/-- The lookups over linked modules: the spans and the text, whatever the entry. -/
def mapOf (entry : String) (mods : List Module) : SourceMap := ⟨entry, textOf mods, spansFrom 1 mods⟩

theorem Graph.link_sourceMap {g : Graph} (h : g.link = some linked) :
    linked.sourceMap = mapOf linked.entryPath g.modules := by
  obtain ⟨htext, hspans, -⟩ := link_eq h
  rw [Linked.sourceMap, htext, hspans, mapOf]

theorem mapOf_isEmpty : (mapOf entry (before ++ m :: after)).moduleSpans.isEmpty = false := by
  change (spansFrom 1 (before ++ m :: after)).isEmpty = false
  rw [isEmpty_eq_false_iff]
  intro hnil
  have hlen := congrArg length hnil
  simp at hlen

/-- The display paths name a file each: none is empty, and no two are the same once cleaned. -/
structure Named (paths : PathRules) (mods : List Module) : Prop where
  nonempty : ∀ m ∈ mods, m.display ≠ ""
  distinct : (mods.map fun m => paths.clean m.display).Nodup

/-- The spans before, at and after a module. -/
theorem spansFrom_split (before after : List Module) (m : Module) :
    spansFrom 1 (before ++ m :: after) = spansFrom 1 before ++ ⟨m.display, linesOf before + 1⟩ ::
      spansFrom (linesOf before + 1 + (sourceLines m.source).length) after := by
  rw [spansFrom_append, spansFrom, Nat.add_comm 1]

/-- The spans are those of the modules, from the first line on. -/
theorem mem_spansFrom {span : ModuleSpan} (h : span ∈ spansFrom line mods) :
    line ≤ span.startLine ∧ ∃ m ∈ mods, m.display = span.path := by
  induction mods generalizing line with
  | nil => cases h
  | cons m mods ih =>
    rcases mem_cons.mp h with rfl | h
    · exact ⟨Nat.le_refl _, m, mem_cons_self, rfl⟩
    · obtain ⟨hle, m', hm', hpath⟩ := ih h
      exact ⟨by omega, m', mem_cons_of_mem _ hm', hpath⟩

/-- The span of a module is found by its display name. -/
theorem moduleSpanFor_display (h : Named paths (before ++ m :: after)) :
    (mapOf entry (before ++ m :: after)).moduleSpanFor paths m.display = some before.length := by
  have hne : m.display ≠ "" := h.nonempty m (by simp)
  -- no module before `m` has its path
  have hbef : (spansFrom 1 before).findIdx?
      (fun span => paths.clean span.path == paths.clean m.display) = none := by
    rw [findIdx?_eq_none_iff]
    intro span hspan
    obtain ⟨-, m', hm', hpath⟩ := mem_spansFrom hspan
    rw [beq_eq_false_iff_ne, ← hpath]
    intro hclean
    have hnd := h.distinct
    rw [map_append, nodup_append'] at hnd
    refine hnd.2.2 (mem_map_of_mem hm') ?_
    rw [hclean]
    simp
  have hfind : (spansFrom 1 (before ++ m :: after)).findIdx?
      (fun span => paths.clean span.path == paths.clean m.display) = some before.length := by
    rw [spansFrom_split, findIdx?_append, hbef]
    simp [findIdx?_cons]
  unfold SourceMap.moduleSpanFor
  rw [if_neg hne]
  dsimp only [mapOf]
  rw [hfind]

/-- The lines of the linked text are those of its modules. -/
theorem blobLineCount_textOf (mods : List Module) : blobLineCount (textOf mods) = linesOf mods := by
  unfold blobLineCount
  rcases closed_textOf mods with h | h
  · rw [linesOf, h]
    rfl
  · split_ifs with hemp
    · rw [linesOf, isEmpty_iff.mp hemp]
      rfl
    · rfl

/-- A span ends where the next begins, and the last one with the text. -/
theorem spanLastLine_eq :
    (mapOf entry (before ++ m :: after)).spanLastLine before.length =
      some (linesOf before + (sourceLines m.source).length) := by
  have hpos := sourceLines_pos m.source
  unfold SourceMap.spanLastLine
  dsimp only [mapOf]
  rw [spansFrom_split, getElem?_append_right (by simp), length_spansFrom]
  rw [Nat.add_sub_cancel_left, getElem?_cons_succ]
  cases after with
  | nil =>
    -- the last module: what is left is the line count of the text
    dsimp only [spansFrom, getElem?_nil]
    rw [blobLineCount_textOf, linesOf_append, linesOf_cons, linesOf_nil, Nat.add_zero,
      if_pos (by omega)]
  | cons next after =>
    dsimp only [spansFrom, getElem?_cons_zero]
    congr 1
    omega

/-- A line of a file becomes a line of the linked text, and a line past its end none. -/
theorem moduleLine_eq (h : Named paths (before ++ m :: after)) (line : Nat) :
    (mapOf entry (before ++ m :: after)).moduleLine paths m.display line =
      if 1 ≤ line ∧ line ≤ (sourceLines m.source).length then some (linesOf before + line)
      else none := by
  have hspan : (mapOf entry (before ++ m :: after)).moduleSpans[before.length]? =
      some ⟨m.display, linesOf before + 1⟩ := by
    dsimp only [mapOf]
    rw [spansFrom_split, getElem?_append_right (by simp), length_spansFrom, Nat.sub_self]
    rfl
  unfold SourceMap.moduleLine
  by_cases hline : line = 0
  · rw [if_pos hline, if_neg (by omega)]
  · rw [if_neg hline, if_neg (by simp [mapOf_isEmpty]), moduleSpanFor_display h]
    dsimp only
    rw [hspan, spanLastLine_eq]
    dsimp only
    split_ifs with hpast hin hin
    · omega
    · rfl
    · congr 1
      omega
    · omega

/-- A line of the linked text leads back to the file and the line it came from. -/
theorem moduleAt_eq (hpos : 1 ≤ line) (hle : line ≤ (sourceLines m.source).length) :
    (mapOf entry (before ++ m :: after)).moduleAt (linesOf before + line) =
      some (m.display, line) := by
  -- all later spans start below the line
  have haft : (spansFrom (linesOf before + 1 + (sourceLines m.source).length) after).reverse.find?
      (·.startLine ≤ linesOf before + line) = none := by
    rw [find?_eq_none]
    intro span hspan
    obtain ⟨hst, -⟩ := mem_spansFrom (mem_reverse.mp hspan)
    rw [decide_eq_true_eq]
    omega
  unfold SourceMap.moduleAt
  rw [if_neg (by simp [mapOf_isEmpty]; omega)]
  dsimp only [mapOf]
  rw [spansFrom_split, reverse_append, reverse_cons, append_assoc, find?_append, haft]
  rw [Option.none_or, singleton_append, find?_cons_of_pos (by simpa using hpos)]
  rw [Option.map_some]
  congr 2
  dsimp only
  omega

/-- The lines of the linked text at a module are the module's lines. -/
theorem split_textOf_getElem? (hpos : 1 ≤ line) (hle : line ≤ (sourceLines m.source).length) :
    (split newline (textOf (before ++ m :: after)))[linesOf before + line - 1]? =
      (sourceLines m.source)[line - 1]? := by
  rw [textOf_append, textOf_cons, split_append (closed_textOf before),
    split_append (closed_chunk m.source)]
  rw [getElem?_append_right (by rw [length_split_textOf]; omega), length_split_textOf,
    getElem?_append_left (by rw [sourceLines] at hle; omega)]
  congr 1
  omega

/-- The bytes of the linked text at a module are the module's bytes, on the same lines of it. -/
theorem textOf_getElem? {off : Nat} (h : off < m.source.length) :
    (textOf (before ++ m :: after))[(textOf before).length + off]? = m.source[off]? := by
  obtain ⟨tail, htail⟩ := chunk_eq_append m.source
  rw [textOf_append, textOf_cons, htail, getElem?_append_right (by omega),
    Nat.add_sub_cancel_left, append_assoc, getElem?_append_left h]

theorem lineOf_textOf {offset : Nat} (h : offset ≤ m.source.length) :
    lineOf newline (textOf (before ++ m :: after)) ((textOf before).length + offset) =
      linesOf before + lineOf newline m.source offset := by
  obtain ⟨tail, htail⟩ := chunk_eq_append m.source
  rw [textOf_append, textOf_cons, htail, lineOf_append, append_assoc, lineOf_append_left _ h,
    linesOf]

/-- Every line of the linked text lies in one of the modules. -/
theorem exists_module_of_line (line : Nat) (hpos : 1 ≤ line) (hle : line ≤ linesOf mods) :
    ∃ before m after l, mods = before ++ m :: after ∧ line = linesOf before + l ∧ 1 ≤ l ∧
      l ≤ (sourceLines m.source).length := by
  induction mods generalizing line with
  | nil =>
    change line ≤ 0 at hle
    omega
  | cons m mods ih =>
    by_cases hin : line ≤ (sourceLines m.source).length
    · exact ⟨[], m, mods, line, rfl, by simp [linesOf], hpos, hin⟩
    · rw [linesOf_cons] at hle
      obtain ⟨before, m', after, l, rfl, hl, hbds⟩ :=
        ih (line - (sourceLines m.source).length) (by omega) (by omega)
      refine ⟨m :: before, m', after, l, rfl, ?_, hbds⟩
      rw [linesOf_cons]
      omega

/-! ### Linking -/

/-- The positions of the `i`th module were moved down by `lines` and on by `offset`: to the line
its line became, and to the byte its byte became. -/
structure RebasedBy (paths : PathRules) (linked : Linked) (i : Nat) (m : Module)
    (lines offset : Nat) : Prop where
  program : linked.modules[i]? =
    some { m with program := m.program.mapPositions (·.shift lines offset) }
  line : ∀ l, 1 ≤ l → l ≤ (sourceLines m.source).length →
    linked.sourceMap.moduleLine paths m.display l = some (lines + l)
  byte : ∀ o < m.source.length, linked.sourceText[offset + o]? = m.source[o]?
  lineOf : ∀ o ≤ m.source.length,
    lineOf newline linked.sourceText (offset + o) = lines + lineOf newline m.source o

theorem exists_split_of_getElem? {i : Nat} (h : mods[i]? = some m) :
    ∃ before after, mods = before ++ m :: after ∧ before.length = i := by
  obtain ⟨hi, rfl⟩ := List.getElem?_eq_some_iff.mp h
  exact ⟨mods.take i, mods.drop (i + 1), by simp, by simp; omega⟩

/-- A module is moved by the lines and the bytes of those linked before it. -/
theorem rebasedBy_of_split {g : Graph} (hlink : g.link = some linked)
    (hnm : Named paths g.modules) (hspl : g.modules = before ++ m :: after) :
    RebasedBy paths linked before.length m (linesOf before) (textOf before).length := by
  obtain ⟨htext, -, hmodules⟩ := link_eq hlink
  rw [hspl] at htext hmodules hnm
  refine ⟨?_, ?_, ?_, ?_⟩
  · rw [hmodules, rebasedFrom_append]
    simp [rebasedFrom]
  · intro l hpos hle
    rw [Graph.link_sourceMap hlink, hspl, moduleLine_eq hnm, if_pos ⟨hpos, hle⟩]
  · intro o ho
    rw [htext]
    exact textOf_getElem? ho
  · intro o ho
    rw [htext]
    exact lineOf_textOf ho

/-- A line of the linked text is the image of one line of one module. -/
theorem moduleLine_exactlyOne (hnm : Named paths mods) {b : Nat} (hpos : 1 ≤ b)
    (hle : b ≤ linesOf mods) :
    ∃ i l : Nat, ∀ i' l' : Nat, (∃ m : Module, mods[i']? = some m ∧
      (mapOf entry mods).moduleLine paths m.display l' = some b) ↔ i' = i ∧ l' = l := by
  obtain ⟨before, m, after, l, rfl, rfl, hl⟩ := exists_module_of_line b hpos hle
  refine ⟨before.length, l, ?_⟩
  intro i' l'
  constructor
  · rintro ⟨m', hm', hline⟩
    obtain ⟨before', after', hspl, rfl⟩ := exists_split_of_getElem? hm'
    rw [hspl, moduleLine_eq (by rw [← hspl]; exact hnm)] at hline
    split_ifs at hline with hin
    -- the line leads back to one module and one line of it
    have hat : (mapOf entry (before ++ m :: after)).moduleAt (linesOf before + l) =
      some (m.display, l) := moduleAt_eq hl.1 hl.2
    rw [hspl, ← Option.some.inj hline, moduleAt_eq hin.1 hin.2] at hat
    obtain ⟨hdisplay, rfl⟩ := Prod.mk.inj (Option.some.inj hat)
    refine ⟨?_, rfl⟩
    have hlt : before'.length < ((before ++ m :: after).map fun m => paths.clean m.display).length := by
      rw [hspl]
      simp
    rw [← getElem?_inj hlt hnm.distinct, getElem?_map, hm']
    simp [hdisplay]
  · rintro ⟨rfl, rfl⟩
    exact ⟨m, by simp, by rw [moduleLine_eq hnm, if_pos hl]⟩

/-- Linking can be undone: each line of a module is one line of the linked text, which leads back
to it and reads the same, and the positions of its program were moved there; a line past the end is
refused, and no line of the linked text is anything else. -/
theorem link_linesInvert (paths : PathRules) (g : Graph) (linked : Linked)
    (hlink : g.link = some linked) (hnamed : Named paths g.modules) :
    (∀ i m, g.modules[i]? = some m →
      (∀ l, 1 ≤ l → l ≤ (sourceLines m.source).length →
        ∃ b, linked.sourceMap.moduleLine paths m.display l = some b ∧
          linked.sourceMap.moduleAt b = some (m.display, l) ∧
          (split newline linked.sourceText)[b - 1]? = (sourceLines m.source)[l - 1]?) ∧
      (∀ l, (sourceLines m.source).length < l →
        linked.sourceMap.moduleLine paths m.display l = none) ∧
      ∃ lines offset, RebasedBy paths linked i m lines offset) ∧
    ∀ b, 1 ≤ b → b ≤ (split newline linked.sourceText).length →
      ∃ i l : Nat, ∀ i' l' : Nat, (∃ m : Module, g.modules[i']? = some m ∧
        linked.sourceMap.moduleLine paths m.display l' = some b) ↔ i' = i ∧ l' = l := by
  obtain ⟨htext, -, -⟩ := link_eq hlink
  refine ⟨?_, ?_⟩
  · intro i m hm
    obtain ⟨before, after, hsplit, rfl⟩ := exists_split_of_getElem? hm
    refine ⟨?_, ?_, _, _, rebasedBy_of_split hlink hnamed hsplit⟩
    · intro l hpos hle
      refine ⟨linesOf before + l, ?_, ?_, ?_⟩
      · exact (rebasedBy_of_split hlink hnamed hsplit).line l hpos hle
      · rw [Graph.link_sourceMap hlink, hsplit]
        exact moduleAt_eq hpos hle
      · rw [htext, hsplit]
        exact split_textOf_getElem? hpos hle
    -- past its last line a module has none
    · intro l hl
      rw [Graph.link_sourceMap hlink]
      rw [hsplit] at hnamed ⊢
      rw [moduleLine_eq hnamed, if_neg (by omega)]
  · rw [htext, length_split_textOf, Graph.link_sourceMap hlink]
    intro b hpos hle
    exact moduleLine_exactlyOne hnamed hpos hle

/-- A module with no imports and one recorded position. -/
def plainModule (display : String) (source : Source) : Module :=
  ⟨display, display, source, ⟨[], [(0, ⟨⟨1, 1, 0⟩, ⟨1, 2, 1⟩⟩)], [], []⟩, []⟩

/-- A file without a final newline, an empty file, and a file of two lines. -/
def threeFiles : Graph where
  modules := [plainModule "lib/util.mut" [97], plainModule "empty.mut" [],
    plainModule "main.mut" [98, 10, 99, 10]]
  entry := some (plainModule "main.mut" [98, 10, 99, 10])

/-- The second line of the entry is the fourth of the linked text. -/
theorem link_linesInvert_threeFiles :
    ∃ linked, threeFiles.link = some linked ∧ Named unixPaths threeFiles.modules ∧
      linked.sourceMap.moduleLine unixPaths "main.mut" 2 = some 4 ∧
      linked.sourceMap.moduleAt 4 = some ("main.mut", 2) := by
  have hnamed : Named unixPaths threeFiles.modules :=
    ⟨by simp [threeFiles, plainModule], by decide +kernel⟩
  have hlink : ∃ linked, threeFiles.link = some linked := ⟨_, rfl⟩
  obtain ⟨linked, hlink⟩ := hlink
  have hall := link_linesInvert unixPaths threeFiles linked hlink hnamed
  obtain ⟨b, hline, hat, -⟩ := (hall.1 2 _ rfl).1 2 (by decide) (by decide)
  have hfour : linked.sourceMap.moduleLine unixPaths "main.mut" 2 = some 4 := by
    cases hlink
    decide +kernel
  obtain rfl : b = 4 := Option.some.inj (hline.symm.trans hfour)
  exact ⟨linked, hlink, hnamed, hfour, hat⟩

/-- One file listed under two spellings. -/
def spelledTwice : Graph where
  modules := [plainModule "a.mut" [97], plainModule "./a.mut" [98]]
  entry := some (plainModule "./a.mut" [98])

/-- Display paths that differ only in what cleaning takes away are taken for one: the line of the
second file is answered with the line of the first. -/
theorem spelledTwice_linesMixed :
    (spelledTwice.modules.map Module.display).Nodup ∧
    ∃ linked, spelledTwice.link = some linked ∧
      linked.sourceMap.moduleLine unixPaths "./a.mut" 1 = some 1 ∧
      linked.sourceMap.moduleAt 1 = some ("a.mut", 1) :=
  ⟨by decide, _, rfl, by decide +kernel, by decide +kernel⟩

/-- A file that is displayed without a name, beside one that has one. -/
def unnamedFile : Graph where
  modules := [plainModule "" [97], plainModule "main.mut" [98]]
  entry := some (plainModule "main.mut" [98])

/-- The empty path asks for the entry, so the line of the file without a name is answered with the
line of another. -/
theorem unnamedFile_linesMixed :
    (unnamedFile.modules.map fun m => unixPaths.clean m.display).Nodup ∧
    ∃ linked, unnamedFile.link = some linked ∧
      linked.sourceMap.moduleLine unixPaths "" 1 = some 2 ∧
      linked.sourceMap.moduleAt 2 = some ("main.mut", 1) :=
  ⟨by decide +kernel, _, rfl, by decide +kernel, by decide +kernel⟩

end Mutant.Modules
