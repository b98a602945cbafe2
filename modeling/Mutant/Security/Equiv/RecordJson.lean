import Mutant.Security.RecordGrant

/-!
# The text of record and grant files

* `repeatedKeyFrom_tokens`: a document in which no object has a name twice is not refused for a
  repeated name.
* `decodeGrantFile_marshalGrantFile`: a grant file whose texts are UTF-8 is decoded from what was
  written.
* `length_marshalGrantFile_le`: how long what was written is.
-/

namespace Mutant.Security

open List Json

variable {opened : List (Option ObjectFrame)} {rest : List Token} {n : Nat}

/-! ### Repeated names -/

/-- No object in the document has a name twice. -/
inductive Unrepeated : Json → Prop
  | null : Unrepeated .null
  | bool (value : Bool) : Unrepeated (.bool value)
  | number (literal : List UInt8) : Unrepeated (.number literal)
  | string (value : List UInt8) : Unrepeated (.string value)
  | array {items : List Json} (hitems : ∀ item ∈ items, Unrepeated item) : Unrepeated (.array items)
  | object {members : List (List UInt8 × Json)} (hnames : (members.map Prod.fst).Nodup)
      (hvalues : ∀ m ∈ members, Unrepeated m.2) : Unrepeated (.object members)

/-- The check goes on after a value, or is over when nothing is open. -/
def afterValue (opened : List (Option ObjectFrame)) (rest : List Token) : Option Bytes :=
  if opened.isEmpty then none else repeatedKeyFrom (completeValue opened) rest

/-- A value is due: nothing waits for a name. -/
def ValueDue (opened : List (Option ObjectFrame)) : Prop :=
  ∀ names outer, opened ≠ some ⟨names, true⟩ :: outer

/-- The check passes over a document. -/
def Passes (v : Json) : Prop :=
  ∀ opened, ValueDue opened → ∀ rest,
    repeatedKeyFrom opened (v.tokens ++ rest) = afterValue opened rest

/-- The items of an array pass, when each passes. -/
theorem repeatedKeyFrom_itemsTokens {items : List Json} (h : ∀ item ∈ items, Passes item) :
    repeatedKeyFrom (none :: opened) (itemsTokens items ++ .closeArray :: rest) =
      afterValue opened rest := by
  induction items with
  | nil => rfl
  | cons item items ih =>
    obtain ⟨hitem, hitems⟩ := forall_mem_cons.mp h
    have hdue : ValueDue (none :: opened) := fun _ _ heq => nomatch heq
    rw [itemsTokens, cons_append, append_assoc]
    show repeatedKeyFrom (none :: opened) (item.tokens ++ _) = _
    rw [hitem _ hdue]
    exact ih hitems

/-- After the name of a member, its value and the members behind it are passed. -/
theorem repeatedKeyFrom_value {names : List Bytes} {value : Json} (hvalue : Passes value)
    (tokens : List Token) :
    repeatedKeyFrom (some ⟨names, false⟩ :: opened) (.colon :: (value.tokens ++ tokens)) =
      repeatedKeyFrom (some ⟨names, true⟩ :: opened) tokens := by
  have hdue : ValueDue (some ⟨names, false⟩ :: opened) := fun _ _ heq => nomatch heq
  show repeatedKeyFrom (some ⟨names, false⟩ :: opened) (value.tokens ++ tokens) = _
  rw [hvalue _ hdue]
  rfl

theorem repeatedKeyFrom_name {names : List Bytes} {name : Bytes} (hname : name ∉ names)
    (tokens : List Token) :
    repeatedKeyFrom (some ⟨names, true⟩ :: opened) (.string name :: tokens) =
      repeatedKeyFrom (some ⟨name :: names, false⟩ :: opened) tokens :=
  if_neg hname

/-- The members of an object pass, when their values do and their names are new. -/
theorem repeatedKeyFrom_membersTokens {names : List Bytes} {members : List (List UInt8 × Json)}
    (h : ∀ m ∈ members, Passes m.2) (hnodup : (members.map Prod.fst).Nodup)
    (hnew : ∀ m ∈ members, m.1 ∉ names) :
    repeatedKeyFrom (some ⟨names, true⟩ :: opened) (membersTokens members ++ .closeObject :: rest) =
      afterValue opened rest := by
  -- `names` are the names the object has had so far
  induction members generalizing names with
  | nil => rfl
  | cons m members ih =>
    obtain ⟨hm, hmembers⟩ := forall_mem_cons.mp h
    obtain ⟨hnot, hrest⟩ := nodup_cons.mp hnodup
    obtain ⟨hname, hnames⟩ := forall_mem_cons.mp hnew
    rw [membersTokens, cons_append, cons_append, cons_append, append_assoc]
    show repeatedKeyFrom (some ⟨names, true⟩ :: opened)
      (.string m.1 :: .colon :: (m.2.tokens ++ _)) = _
    rw [repeatedKeyFrom_name hname, repeatedKeyFrom_value hm]
    refine ih hmembers hrest fun m' hm' hmem => ?_
    rcases mem_cons.mp hmem with heq | hmem
    · exact hnot (mem_map.mpr ⟨m', hm', heq⟩)
    · exact hnames m' hm' hmem

/-- A document in which no object has a name twice is passed. -/
theorem repeatedKeyFrom_tokens {v : Json} (h : Unrepeated v) : Passes v := by
  induction h with
  | null => exact fun _ _ _ => rfl
  | bool => exact fun _ _ _ => rfl
  | number => exact fun _ _ _ => rfl
  | string value =>
    intro opened hdue rest
    rw [tokens, singleton_append, repeatedKeyFrom]
    · rfl
    · exact hdue
  | @array items _ ih =>
    intro opened _ rest
    cases items with
    | nil => rfl
    | cons item items =>
      obtain ⟨hitem, hitems⟩ := forall_mem_cons.mp ih
      -- in an array no name is due, so a string there is a value
      have hdue : ValueDue (none :: opened) := fun _ _ heq => nomatch heq
      rw [tokens, cons_append, append_assoc, append_assoc]
      show repeatedKeyFrom (none :: opened) (item.tokens ++ _) = _
      rw [hitem _ hdue]
      exact repeatedKeyFrom_itemsTokens hitems
  | @object members hnames _ ih =>
    intro opened _ rest
    cases members with
    | nil => rfl
    | cons m members =>
      obtain ⟨hm, hmembers⟩ := forall_mem_cons.mp ih
      obtain ⟨hnot, hrest⟩ := nodup_cons.mp hnames
      rw [tokens, cons_append, cons_append, cons_append, append_assoc, append_assoc]
      show repeatedKeyFrom (some ⟨[], true⟩ :: opened)
        (.string m.1 :: .colon :: (m.2.tokens ++ _)) = _
      rw [repeatedKeyFrom_name not_mem_nil, repeatedKeyFrom_value hm]
      -- the first name is seen, and no later one is equal to it
      refine repeatedKeyFrom_membersTokens hmembers hrest fun m' hm' hmem => ?_
      exact hnot (mem_map.mpr ⟨m', hm', mem_singleton.mp hmem⟩)

/-! ### Files that were written -/

section

variable {σ : Type} {fields : List (Json.Field σ)} {s empty : σ} {ws : Bytes}

/-- A structure whose fields decode one after another is decoded from its text. -/
theorem decodeFile_render (L : Layout) (hnames : (fields.map (·.name)).Nodup)
    (hwritable : Writable n (writeStruct fields s)) (hn : n ≤ maxNestingDepth)
    (hreads : fields.foldlM (fun t f => f.decode (f.write s) t) empty = some s)
    (hws : ∀ b ∈ ws, isSpace b = true) :
    decodeFile fields empty ((writeStruct fields s).render L 0 ++ ws) = some s := by
  rw [decodeFile, decode_render_of_writable L 0 hwritable hn hws, Option.bind_some,
    decodeStruct_writeStruct hnames, hreads]

/-- A document without repeated names is not refused for one. -/
theorem repeatedKey_render (L : Layout) {v : Json} (hwritable : Writable n v) (hv : Unrepeated v)
    (hws : ∀ b ∈ ws, isSpace b = true) : repeatedKey (v.render L 0 ++ ws) = none := by
  have hdelimited : Delimited ws := by
    have := delimited_append hws delimited_nil
    rwa [append_nil] at this
  have hlexWs : Json.lex ws = some [] := by
    have := lex_space hws []
    rwa [append_nil] at this
  rw [repeatedKey, lex_render L 0 v hwritable.good hdelimited, hlexWs, ← tokens_repair,
    repair_of_isUtf8 hwritable.utf8]
  exact repeatedKeyFrom_tokens hv [] (fun _ _ heq => nomatch heq) []

end

/-! ### Grant files -/

theorem reads_grantRun (run : GrantRun) : (Coding.struct grantRunFields).Reads run := by
  intro there
  show decodeStruct grantRunFields (writeStruct grantRunFields run) there = _
  rw [decodeStruct_writeStruct (by decide)]
  simp only [grantRunFields, foldlM_cons, foldlM_nil, decode_field (Coding.reads_uint64 _),
    Option.bind_eq_bind, Option.bind_some]
  rfl

theorem reads_kdf (kdf : GrantKDF) : (Coding.struct caseKeyKDFFields).Reads kdf := by
  intro there
  show decodeStruct caseKeyKDFFields (writeStruct caseKeyKDFFields kdf) there = _
  rw [decodeStruct_writeStruct (by decide)]
  simp only [caseKeyKDFFields, foldlM_cons, foldlM_nil, decode_field (Coding.reads_string _),
    decode_field (Coding.reads_uint32 _), decode_field (Coding.reads_uint8 _),
    Option.bind_eq_bind, Option.bind_some]
  rfl

/-- The fields of a grant file, each decoded from what it was written as. -/
theorem foldlM_grantFile (f : GrantFile) :
    grantFileFields.foldlM (fun t field => field.decode (field.write (f, [])) t)
      (emptyGrantFile, []) = some (f, []) := by
  simp only [grantFileFields, foldlM_cons, foldlM_nil, decode_field (Coding.reads_string _),
    decode_field (Coding.reads_uint32 _), decode_field (Coding.reads_uint64 _),
    decode_field (reads_kdf _), Option.bind_eq_bind, Option.bind_some]
  -- the runs are decoded while there are none
  show (((Coding.slice (Coding.struct grantRunFields) ⟨0, 0⟩).decode
    ((Coding.slice (Coding.struct grantRunFields) ⟨0, 0⟩).write ⟨f.runs, []⟩) ⟨none, []⟩).map _).bind
      _ = _
  rw [Coding.decode_slice _ fun _ _ run _ => reads_grantRun run]
  rfl

/-- The document of a grant file. -/
def grantDocument (f : GrantFile) : Json := writeStruct grantFileFields (f, [])

/-- The texts of a grant file. -/
def GrantFile.texts (f : GrantFile) : List Bytes :=
  [f.format, f.disclosureUID, f.caseUID, f.recordUID, f.descriptorsRoot, f.kdf.algorithm, f.kdf.salt,
    f.nonce, f.blob]

theorem writable_grantRun (run : GrantRun) : Writable 1 (writeStruct grantRunFields run) := by
  refine writable_struct (by decide) ?_
  simp only [grantRunFields, forall_mem_cons]
  exact ⟨writable_number _, writable_number _, fun _ h => nomatch h⟩

theorem writable_kdf {kdf : GrantKDF} (halgorithm : Utf8.valid kdf.algorithm = true)
    (hsalt : Utf8.valid kdf.salt = true) : Writable 2 (writeStruct caseKeyKDFFields kdf) := by
  refine writable_struct (by decide) ?_
  simp only [caseKeyKDFFields, forall_mem_cons]
  exact ⟨writable_string halgorithm, writable_string hsalt, writable_number _, writable_number _,
    writable_number _, writable_number _, fun _ h => nomatch h⟩

theorem writable_runs (runs : Option (List GrantRun)) :
    Writable 2 ((Coding.slice (Coding.struct grantRunFields) ⟨0, 0⟩).write ⟨runs, []⟩) := by
  cases runs with
  | none => exact writable_null
  | some runs => exact writable_array (forall_mem_map.mpr fun run _ => writable_grantRun run)

/-- The document of a grant file can be read back when its texts are UTF-8. -/
theorem writable_grantDocument {f : GrantFile} (h : ∀ t ∈ f.texts, Utf8.valid t = true) :
    Writable 3 (grantDocument f) := by
  simp only [GrantFile.texts, forall_mem_cons] at h
  obtain ⟨hformat, hdisclosure, hcase, hrecord, hroot, halgorithm, hsalt, hnonce, hblob, -⟩ := h
  refine writable_struct (by decide) ?_
  simp only [grantFileFields, forall_mem_cons]
  exact ⟨writable_string hformat, writable_number _, writable_string hdisclosure,
    writable_string hcase, writable_string hrecord, writable_number _, writable_number _,
    writable_number _, writable_runs f.runs, writable_string hroot,
    writable_kdf halgorithm hsalt, writable_string hnonce, writable_string hblob,
    fun _ h => nomatch h⟩

theorem unrepeated_struct {σ : Type} {fields : List (Json.Field σ)} {s : σ}
    (hnames : (fields.map (·.name)).Nodup) (h : ∀ f ∈ fields, Unrepeated (f.write s)) :
    Unrepeated (writeStruct fields s) := by
  refine .object ?_ (forall_mem_map.mpr h)
  rwa [map_map]

/-- No object of a grant file has a name twice. -/
theorem unrepeated_grantDocument (f : GrantFile) : Unrepeated (grantDocument f) := by
  have hrun (run : GrantRun) : Unrepeated (writeStruct grantRunFields run) := by
    refine unrepeated_struct (by decide) ?_
    simp only [grantRunFields, forall_mem_cons]
    exact ⟨.number _, .number _, fun _ h => nomatch h⟩
  have hruns : Unrepeated
      ((Coding.slice (Coding.struct grantRunFields) ⟨0, 0⟩).write ⟨f.runs, []⟩) := by
    -- no runs are written as `null`
    cases f.runs with
    | none => exact .null
    | some runs => exact .array (forall_mem_map.mpr fun run _ => hrun run)
  have hkdf : Unrepeated (writeStruct caseKeyKDFFields f.kdf) := by
    refine unrepeated_struct (by decide) ?_
    simp only [caseKeyKDFFields, forall_mem_cons]
    exact ⟨.string _, .string _, .number _, .number _, .number _, .number _, fun _ h => nomatch h⟩
  refine unrepeated_struct (by decide) ?_
  simp only [grantFileFields, forall_mem_cons]
  exact ⟨.string _, .number _, .string _, .string _, .string _, .number _, .number _, .number _,
    hruns, .string _, hkdf, .string _, .string _, fun _ h => nomatch h⟩

/-- A grant file whose texts are UTF-8 is decoded from what was written. -/
theorem decodeGrantFile_marshalGrantFile {f : GrantFile} (h : ∀ t ∈ f.texts, Utf8.valid t = true) :
    decodeGrantFile (marshalGrantFile f) = .ok f := by
  have hspace : ∀ b ∈ text "\n", isSpace b = true :=
    show ∀ b ∈ [10], isSpace b = true from forall_mem_singleton.mpr rfl
  have hdepth : 3 ≤ maxNestingDepth := by decide
  have hwritable := writable_grantDocument h
  have hfile : decodeFile grantFileFields (emptyGrantFile, []) (marshalGrantFile f) =
      some (f, []) :=
    decodeFile_render indented (by decide) hwritable hdepth (foldlM_grantFile f) hspace
  have hrepeated : repeatedKey (marshalGrantFile f) = none :=
    repeatedKey_render indented hwritable (unrepeated_grantDocument f) hspace
  rw [decodeGrantFile, hfile, hrepeated]

/-! ### How long a grant file is -/

theorem length_uint64 (value : UInt64) : (Decimal.ofNat value.toNat).length ≤ 20 :=
  Decimal.length_ofNat_le (by decide) (Nat.lt_trans value.toNat_lt (by decide))

theorem length_uint32 (value : UInt32) : (Decimal.ofNat value.toNat).length ≤ 10 :=
  Decimal.length_ofNat_le (by decide) (Nat.lt_trans value.toNat_lt (by decide))

theorem length_uint8 (value : UInt8) : (Decimal.ofNat value.toNat).length ≤ 3 :=
  Decimal.length_ofNat_le (by decide) (Nat.lt_trans value.toNat_lt (by decide))

/-- A run takes 86 bytes at most. -/
theorem length_render_runs_le (runs : List GrantRun) :
    (render indented 1 (.array (runs.map (writeStruct grantRunFields)))).length ≤
      5 + 86 * runs.length := by
  have hnames : (grantRunFields.map fun f => (quote f.name).length).sum = 13 := by decide
  -- two numbers of twenty digits at most
  have hrun (run : GrantRun) :
      (render indented 2 (writeStruct grantRunFields run)).length ≤ 80 := by
    have hlength := length_render_struct_le 2 grantRunFields run
    have hvalues : (grantRunFields.map fun f => ((f.write run).render indented 3).length) =
      [(Decimal.ofNat run.first.toNat).length, (Decimal.ofNat run.last.toNat).length] := rfl
    have hfirst := length_uint64 run.first
    have hlast := length_uint64 run.last
    rw [hnames, hvalues, show grantRunFields.length = 2 from rfl] at hlength
    simp only [sum_cons, sum_nil] at hlength
    omega
  refine Nat.le_trans (length_render_array_le 1 _) (Nat.add_le_add_left ?_ 5)
  induction runs with
  | nil => exact Nat.zero_le _
  | cons run runs ih =>
    have hlength : (render indented (1 + 1) (writeStruct grantRunFields run)).length ≤ 80 := hrun run
    simp only [map_cons, sum_cons, length_cons]
    omega

/-- The length of the key derivation's parameters. -/
theorem length_render_kdf_le {kdf : GrantKDF} (halgorithm : kdf.algorithm.all IsPlain = true)
    (hsalt : kdf.salt.all IsPlain = true) :
    (render indented 1 (writeStruct caseKeyKDFFields kdf)).length ≤
      143 + kdf.algorithm.length + kdf.salt.length := by
  have hlength := length_render_struct_le 1 caseKeyKDFFields kdf
  have hnames : (caseKeyKDFFields.map fun f => (quote f.name).length).sum = 53 := by decide
  have hvalues : (caseKeyKDFFields.map fun f => ((f.write kdf).render indented 2).length) =
    [(quote kdf.algorithm).length, (quote kdf.salt).length, (Decimal.ofNat kdf.time.toNat).length,
      (Decimal.ofNat kdf.memoryKiB.toNat).length, (Decimal.ofNat kdf.threads.toNat).length,
      (Decimal.ofNat kdf.keyLen.toNat).length] := rfl
  have htime := length_uint32 kdf.time
  have hmemory := length_uint32 kdf.memoryKiB
  have hthreads := length_uint8 kdf.threads
  have hkeyLen := length_uint32 kdf.keyLen
  rw [hnames, hvalues, show caseKeyKDFFields.length = 6 from rfl] at hlength
  simp only [sum_cons, sum_nil, length_quote_of_plain halgorithm,
    length_quote_of_plain hsalt] at hlength
  omega

/-- A grant file of plain texts takes what they take, and 86 bytes at most for each run. -/
theorem length_marshalGrantFile_le {f : GrantFile} (h : ∀ t ∈ f.texts, t.all IsPlain = true)
    {runs : List GrantRun} (hruns : f.runs = some runs) :
    (marshalGrantFile f).length ≤ 450 + (f.texts.map length).sum + 86 * runs.length := by
  simp only [GrantFile.texts, forall_mem_cons] at h
  obtain ⟨hformat, hdisclosure, hcase, hrecord, hroot, halgorithm, hsalt, hnonce, hblob, -⟩ := h
  have hlength := length_render_struct_le 0 grantFileFields (f, [])
  have hnames : (grantFileFields.map fun f => (quote f.name).length).sum = 141 := by decide
  -- each field in turn, under its own bound
  have hvalues : (grantFileFields.map fun field =>
      ((field.write (f, [])).render indented 1).length) =
    [(quote f.format).length, (Decimal.ofNat f.version.toNat).length, (quote f.disclosureUID).length,
      (quote f.caseUID).length, (quote f.recordUID).length,
      (Decimal.ofNat f.sealedUnderGeneration.toNat).length,
      (Decimal.ofNat f.segments.toNat).length, (Decimal.ofNat f.granted.toNat).length,
      (render indented 1
        ((Coding.slice (Coding.struct grantRunFields) ⟨0, 0⟩).write ⟨f.runs, []⟩)).length,
      (quote f.descriptorsRoot).length,
      (render indented 1 (writeStruct caseKeyKDFFields f.kdf)).length,
      (quote f.nonce).length, (quote f.blob).length] := rfl
  have hversion := length_uint32 f.version
  have hgeneration := length_uint32 f.sealedUnderGeneration
  have hsegments := length_uint64 f.segments
  have hgranted := length_uint64 f.granted
  have hkdf := length_render_kdf_le halgorithm hsalt
  have harray : (render indented 1
      ((Coding.slice (Coding.struct grantRunFields) ⟨0, 0⟩).write ⟨f.runs, []⟩)).length ≤
      5 + 86 * runs.length := by
    rw [hruns]
    exact length_render_runs_le runs
  have hline : (text "\n").length = 1 := rfl
  rw [hnames, hvalues, show grantFileFields.length = 13 from rfl] at hlength
  simp only [sum_cons, sum_nil, length_quote_of_plain hformat, length_quote_of_plain hdisclosure,
    length_quote_of_plain hcase, length_quote_of_plain hrecord, length_quote_of_plain hroot,
    length_quote_of_plain hnonce, length_quote_of_plain hblob] at hlength
  rw [marshalGrantFile, length_append, hline]
  simp only [GrantFile.texts, map_cons, map_nil, sum_cons, sum_nil]
  omega

end Mutant.Security
