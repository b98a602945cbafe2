import Mathlib.Data.List.Chain
import Mutant.Code.LineTable

/-!
# Line tables keep what they record

The builder's bytes decode to the entries it took (`Records`), those entries are `Regular`, and a
regular table whose offsets are moved without changing their order answers at the moved offset what
it answered at the old one (`remap_at`).
-/

namespace Mutant.Code

open List Varint LineTableBuilder

variable {at_ : Int64 → Prop} {f : Int64 → Int64} {offsets : List (Int64 × Int64)}

variable {t : LineTable} {b : LineTableBuilder} {es : List LineEntry} {last e : LineEntry}

/-! ### The encoding -/

/-- An entry is read back, whatever the wrapped differences are. -/
theorem readEntry_entryBytes (last e : LineEntry) (rest : List UInt8) :
    readEntry last (entryBytes last e ++ rest) = some (e, rest) := by
  have hip : last.ip + (e.ip - last.ip).toUInt64.toInt64 = e.ip := by
    rw [Int64.toInt64_toUInt64]
    grind
  have hline : last.line + (e.line - last.line) = e.line := by grind
  have hcol : last.col + (e.col - last.col) = e.col := by grind
  unfold readEntry entryBytes
  rw [append_assoc, append_assoc, uvarint_putUvarint]
  simp only [Option.bind_eq_bind, Option.bind_some, varint_putVarint, Option.pure_def, hip, hline,
    hcol]

theorem entryBytes_ne_nil (last e : LineEntry) : entryBytes last e ≠ [] := by
  unfold entryBytes
  simp [putUvarint_ne_nil]

/-- The bytes of entries that follow the entry `last`. -/
def encodeFrom : LineEntry → List LineEntry → List UInt8
  | _, [] => []
  | last, e :: es => entryBytes last e ++ encodeFrom e es

theorem encodeFrom_append (last e : LineEntry) (es : List LineEntry) :
    encodeFrom last (es ++ [e]) = encodeFrom last es ++ entryBytes (es.getLastD last) e := by
  induction es generalizing last with
  | nil => simp [encodeFrom]
  | cons d es ih =>
    rw [cons_append, encodeFrom, encodeFrom, ih, append_assoc, getLastD_cons]

theorem length_le_encodeFrom (last : LineEntry) (es : List LineEntry) :
    es.length ≤ (encodeFrom last es).length := by
  induction es generalizing last with
  | nil => simp
  | cons e es ih =>
    have hpos := length_pos_iff.mpr (entryBytes_ne_nil last e)
    have hrest := ih e
    rw [encodeFrom, length_append, length_cons]
    omega

theorem entriesFrom_encodeFrom {fuel : Nat} (last : LineEntry) (es : List LineEntry)
    (hfuel : es.length ≤ fuel) : entriesFrom fuel last (encodeFrom last es) = es := by
  induction es generalizing last fuel with
  | nil => cases fuel <;> rfl
  | cons e es ih =>
    obtain ⟨fuel, rfl⟩ : ∃ n, fuel = n + 1 := ⟨fuel - 1, by simp at hfuel; omega⟩
    rw [encodeFrom, entriesFrom, readEntry_entryBytes]
    simp only [length_cons, Nat.add_le_add_iff_right] at hfuel
    simp only [ih e hfuel]

/-! ### The builder -/

/-- The builder holds these entries. -/
structure Records (b : LineTableBuilder) (es : List LineEntry) : Prop where
  buf : b.buf = encodeFrom .zero es
  last : b.last = es.getLastD .zero
  started : b.started = !es.isEmpty

theorem records_nil : Records {} [] := ⟨rfl, rfl, rfl⟩

theorem Records.entries_build (h : Records b es) : b.build.entries = es := by
  unfold LineTable.entries build
  rw [h.buf]
  exact entriesFrom_encodeFrom .zero es (length_le_encodeFrom .zero es)

theorem Records.build_isEmpty (h : Records b es) : b.build.isEmpty = es.isEmpty := by
  unfold build
  rw [h.buf]
  cases es with
  | nil => rfl
  | cons e es =>
    simp [encodeFrom, entryBytes_ne_nil]

/-- Entries in the order of their offsets, each with another position than the one before, the
first with a line; an entry without a line is a reset. -/
structure Regular (es : List LineEntry) : Prop where
  chain : List.IsChain (fun d e => d.ip ≤ e.ip ∧ ¬ (e.line = d.line ∧ e.col = d.col)) es
  nonneg : ∀ e ∈ es, 0 ≤ e.ip
  line : ∀ e ∈ es, 0 < e.line ∨ (e.line = 0 ∧ e.col = 0)
  head : ∀ e ∈ es.head?, 0 < e.line

theorem regular_nil : Regular [] := ⟨isChain_nil, by simp, by simp, by simp⟩

/-- The entry may follow the entries in hand. -/
def Follows (es : List LineEntry) (e : LineEntry) : Prop :=
  0 ≤ e.ip ∧ ∀ d ∈ es.getLast?, d.ip ≤ e.ip ∧ ¬ (e.line = d.line ∧ e.col = d.col)

/-- An entry that follows keeps a table regular. -/
theorem Regular.snoc (h : Regular es) (he : Follows es e)
    (hline : 0 < e.line ∨ (e.line = 0 ∧ e.col = 0)) (hhead : es = [] → 0 < e.line) :
    Regular (es ++ [e]) where
  chain := by
    rw [isChain_append]
    refine ⟨h.chain, isChain_singleton e, ?_⟩
    intro d hd e' he'
    obtain rfl : e = e' := by simpa using he'
    exact he.2 d hd
  nonneg := by
    intro d hd
    rcases mem_append.mp hd with hd | hd
    · exact h.nonneg d hd
    · obtain rfl : d = e := by simpa using hd
      exact he.1
  line := by
    intro d hd
    rcases mem_append.mp hd with hd | hd
    · exact h.line d hd
    · obtain rfl : d = e := by simpa using hd
      exact hline
  head := by
    intro d hd
    -- the entry is the first of the table, or the first stays
    cases es with
    | nil =>
      obtain rfl : e = d := by simpa using hd
      exact hhead rfl
    | cons c es => exact h.head d (by simpa using hd)

theorem Records.started_iff (h : Records b es) : b.started = true ↔ es ≠ [] := by
  rw [h.started]
  cases es <;> simp

/-- `put` takes an entry that may follow and drops any other. -/
theorem Records.put_cases (h : Records b es) (e : LineEntry) :
    (Follows es e ∧ Records (b.put e) (es ++ [e])) ∨ (¬ Follows es e ∧ b.put e = b) := by
  have hlast : ∀ d ∈ es.getLast?, b.last = d := by
    intro d hd
    rw [h.last, getLastD_eq_getLast?, Option.mem_def.mp hd]
    rfl
  have hnil : es = [] ∨ ∃ d, es.getLast? = some d := by
    cases hes : es.getLast? with
    | none => exact .inl (getLast?_eq_none_iff.mp hes)
    | some d => exact .inr ⟨d, rfl⟩
  unfold put
  -- a negative offset, an earlier one, the same position: all three are dropped
  split_ifs with hneg hback hsame
  · refine .inr ⟨?_, rfl⟩
    intro hf
    exact absurd hneg (Int64.not_lt.mpr hf.1)
  · refine .inr ⟨?_, rfl⟩
    intro hf
    obtain hes | ⟨d, hd⟩ := hnil
    · exact absurd hes (h.started_iff.mp hback.1)
    · rw [hlast d hd] at hback
      exact absurd hback.2 (Int64.not_lt.mpr (hf.2 d hd).1)
  · refine .inr ⟨?_, rfl⟩
    intro hf
    obtain hes | ⟨d, hd⟩ := hnil
    · exact absurd hes (h.started_iff.mp hsame.1)
    · rw [hlast d hd] at hsame
      exact (hf.2 d hd).2 hsame.2
  · refine .inl ⟨⟨Int64.not_lt.mp hneg, ?_⟩, ?_, ?_, ?_⟩
    · intro d hd
      have hstarted : b.started = true := by
        rw [h.started_iff]
        rintro rfl
        cases hd
      rw [← hlast d hd]
      exact ⟨Int64.not_lt.mp fun hlt => hback ⟨hstarted, hlt⟩, fun hs => hsame ⟨hstarted, hs⟩⟩
    · rw [h.buf, h.last, encodeFrom_append]
    · simp
    · simp

/-! ### Tables made by the builder -/

theorem RecordedAt.mono {at_' : Int64 → Prop} (h : RecordedAt at_ t)
    (hsub : ∀ ip, at_ ip → at_' ip) : RecordedAt at_' t := by
  obtain ⟨calls, hcs, ht⟩ := h
  exact ⟨calls, fun c hc => hsub _ (hcs c hc), ht⟩

/-- Entries in hand that are regular and stand at these offsets. -/
structure Holds (at_ : Int64 → Prop) (b : LineTableBuilder) (es : List LineEntry) : Prop where
  records : Records b es
  regular : Regular es
  offset : ∀ e ∈ es, at_ e.ip

/-- A builder that takes or drops an entry goes on holding a table. -/
theorem Holds.put (h : Holds at_ b es) (hat : at_ e.ip)
    (hline : 0 < e.line ∨ (e.line = 0 ∧ e.col = 0)) (hhead : es = [] → 0 < e.line) :
    ∃ es', Holds at_ (b.put e) es' := by
  rcases h.records.put_cases e with ⟨hf, hrec⟩ | ⟨-, heq⟩
  · refine ⟨_, hrec, h.regular.snoc hf hline hhead, ?_⟩
    intro d hd
    rcases mem_append.mp hd with hd | hd
    · exact h.offset d hd
    · obtain rfl : d = e := by simpa using hd
      exact hat
  · rw [heq]
    exact ⟨es, h⟩

/-- So does every call. -/
theorem Holds.run (h : Holds at_ b es) (c : Call) (hat : at_ c.entry.ip) :
    ∃ es', Holds at_ (c.run b) es' := by
  cases c with
  | add entry =>
    change ∃ es', Holds at_ (b.add entry) es'
    unfold add
    split_ifs with hline
    · exact ⟨es, h⟩
    · have hpos : 0 < entry.line := Int64.not_le.mp hline
      exact h.put hat (.inl hpos) (fun _ => hpos)
  -- a reset is an entry without a line, and never the first
  | addOrReset entry =>
    change ∃ es', Holds at_ (b.addOrReset entry) es'
    unfold addOrReset
    split_ifs with hline hstarted
    · exact h.put hat (.inr ⟨rfl, rfl⟩) (fun hnil => absurd hnil (h.records.started_iff.mp hstarted))
    · exact ⟨es, h⟩
    · have hpos : 0 < entry.line := Int64.not_le.mp hline
      exact h.put hat (.inl hpos) (fun _ => hpos)

/-- A table the builder made has regular entries, at the offsets of its calls. -/
theorem RecordedAt.holds (h : RecordedAt at_ t) : ∃ b es, t = b.build ∧ Holds at_ b es := by
  obtain ⟨calls, hcs, rfl⟩ := h
  suffices hrun : ∀ (calls : List Call) (b : LineTableBuilder) (es : List LineEntry),
      (∀ c ∈ calls, at_ c.entry.ip) → Holds at_ b es →
      ∃ es', Holds at_ (calls.foldl Call.run b) es' by
    obtain ⟨es, hes⟩ := hrun calls {} [] hcs ⟨records_nil, regular_nil, by simp⟩
    exact ⟨_, es, rfl, hes⟩
  intro calls
  induction calls with
  | nil => exact fun b es _ h => ⟨es, h⟩
  | cons c calls ih =>
    intro b es hcs h
    obtain ⟨es', h'⟩ := h.run c (hcs c mem_cons_self)
    exact ih _ es' (fun d hd => hcs d (mem_cons_of_mem c hd)) h'

/-! ### Moving the offsets -/

/-- An entry moved to another offset. -/
def LineEntry.move (f : Int64 → Int64) (e : LineEntry) : LineEntry := { e with ip := f e.ip }

/-- An entry that follows is recorded by `AddOrReset`. -/
theorem Records.addOrReset_of_follows (h : Records b es) (hf : Follows es e)
    (hline : 0 < e.line ∨ (e.line = 0 ∧ e.col = 0)) (hhead : es = [] → 0 < e.line) :
    Records (b.addOrReset e) (es ++ [e]) := by
  have hput : Records (b.put e) (es ++ [e]) := by
    rcases h.put_cases e with ⟨-, hrec⟩ | ⟨hnot, -⟩
    · exact hrec
    · exact absurd hf hnot
  unfold addOrReset
  split_ifs with hle hstarted
  · -- a reset
    rcases hline with hpos | ⟨hzero, hcol⟩
    · exact absurd hle (Int64.not_le.mpr hpos)
    · have he : (⟨e.ip, 0, 0⟩ : LineEntry) = e := by
        cases e
        dsimp only at hzero hcol
        rw [hzero, hcol]
      rw [he]
      exact hput
  · have hpos := hhead (by simpa using mt h.started_iff.mpr hstarted)
    exact absurd hle (Int64.not_le.mpr hpos)
  · exact hput

/-- The offsets of some entries are moved, without changing their order. -/
structure Moves (offsets : List (Int64 × Int64)) (f : Int64 → Int64) (at_ : Int64 → Prop) :
    Prop where
  lookup : ∀ ip, at_ ip → offsets.lookup ip = some (f ip)
  nonneg : ∀ ip, at_ ip → 0 ≤ f ip
  mono : ∀ ip ip', at_ ip → at_ ip' → (ip ≤ ip' ↔ f ip ≤ f ip')

theorem Follows.move (hf : Follows es e) (hnonneg : 0 ≤ f e.ip)
    (hmono : ∀ d ∈ es, d.ip ≤ e.ip → f d.ip ≤ f e.ip) :
    Follows (es.map (LineEntry.move f)) (e.move f) := by
  refine ⟨hnonneg, ?_⟩
  intro d hd
  rw [getLast?_map] at hd
  obtain ⟨d, hlast, rfl⟩ := Option.map_eq_some_iff.mp hd
  obtain ⟨hle, hdiffers⟩ := hf.2 d hlast
  exact ⟨hmono d (mem_of_getLast? hlast) hle, hdiffers⟩

/-- Regular entries may follow one another. -/
theorem Regular.follows {rest : List LineEntry} (h : Regular (es ++ e :: rest)) : Follows es e := by
  refine ⟨h.nonneg e (by simp), ?_⟩
  intro d hd
  exact (isChain_append.mp h.chain).2.2 d hd e (by simp)

/-- Entries whose offsets are moved in order are all taken, with their positions. -/
theorem Records.foldl_moveEntry (hmoves : Moves offsets f at_) (rest : List LineEntry)
    (h : Records b (es.map (LineEntry.move f))) (hregular : Regular (es ++ rest))
    (hat : ∀ e ∈ es ++ rest, at_ e.ip) :
    Records (rest.foldl (moveEntry offsets) b) ((es ++ rest).map (LineEntry.move f)) := by
  induction rest generalizing b es with
  | nil => simpa using h
  | cons e rest ih =>
    have hspl : es ++ e :: rest = es ++ [e] ++ rest := by simp
    have hate : at_ e.ip := hat e (by simp)
    rw [foldl_cons, moveEntry, hmoves.lookup e.ip hate, hspl]
    refine ih ?_ (by rw [← hspl]; exact hregular) (by rw [← hspl]; exact hat)
    rw [map_append]
    refine h.addOrReset_of_follows ?_ (hregular.line e (by simp)) ?_
    · refine hregular.follows.move (hmoves.nonneg _ hate) ?_
      intro d hd hle
      exact (hmoves.mono _ _ (hat d (by simp [hd])) hate).mp hle
    · intro hnil
      obtain rfl : es = [] := by simpa using hnil
      exact hregular.head e (by simp)

/-- Where the order of the offsets is kept, so is the entry that covers one. -/
theorem positionAt_move {ip : Int64} (hmono : ∀ e ∈ es, ip < e.ip ↔ f ip < f e.ip) :
    positionAt (es.map (LineEntry.move f)) (f ip) = positionAt es ip := by
  have htake : (es.map (LineEntry.move f)).takeWhile (fun e => !decide (f ip < e.ip)) =
      (es.takeWhile fun e => !decide (ip < e.ip)).map (LineEntry.move f) := by
    induction es with
    | nil => rfl
    | cons e es ih =>
      have hrest := ih fun d hd => hmono d (mem_cons_of_mem e hd)
      have hhead := hmono e mem_cons_self
      rw [map_cons, takeWhile_cons, hrest]
      by_cases hlt : ip < e.ip
      · simp [hlt, LineEntry.move, hhead.mp hlt]
      · simp [hlt, LineEntry.move, mt hhead.mpr hlt]
  unfold positionAt
  rw [htake, getLast?_map]
  cases (es.takeWhile fun e => !decide (ip < e.ip)).getLast? <;> rfl

/-- A table made by the builder answers at the moved offset what it answered at the old one. -/
theorem remap_at (ht : RecordedAt at_ t) (hmoves : Moves offsets f at_) {ip : Int64} (hip : at_ ip)
    (hpos : 0 ≤ ip) : (t.remap (some offsets)).at (f ip) = t.at ip := by
  obtain ⟨b, es, rfl, hb⟩ := ht.holds
  have hmoved : Records (es.foldl (moveEntry offsets) {}) (es.map (LineEntry.move f)) := by
    have hnone : Records {} ([].map (LineEntry.move f)) := records_nil
    exact hnone.foldl_moveEntry hmoves es hb.regular hb.offset
  -- the entry in force is the same, since the order is
  have hposition : positionAt (es.map (LineEntry.move f)) (f ip) = positionAt es ip := by
    refine positionAt_move ?_
    intro e he
    rw [← Int64.not_le, ← Int64.not_le, hmoves.mono _ _ (hb.offset e he) hip]
  have hemp := hb.records.build_isEmpty
  unfold LineTable.remap
  dsimp only
  cases es with
  | nil =>
    simp [LineTable.at, hemp]
  | cons e rest =>
    rw [if_neg (by simp [hemp]), hb.records.entries_build]
    unfold LineTable.at
    rw [hmoved.build_isEmpty, hmoved.entries_build, hemp, hb.records.entries_build, hposition,
      if_neg, if_neg]
    · simpa using hpos
    · simpa using hmoves.nonneg ip hip

end Mutant.Code
