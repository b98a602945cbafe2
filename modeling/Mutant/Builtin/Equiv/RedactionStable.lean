import Mutant.Builtin.Equiv.ChainTamper
import Mutant.Builtin.Equiv.LedgerWrites
import Mutant.Ledger.ListGraph

/-!
# Lines of redaction versions over time

Every call that the ledger accepts is a step of its lineage (`Schema.step`).  So the line of a record
for which a version was written stays the same exactly as long as no record on the way to it is
recorded as reclassifying another one (`redactionLine_stable`).
-/

namespace Mutant.Builtin

open List Mutant.Ledger
open Result hiding map_map
open Mutant.Security (Bytes text)

variable {E : LedgerEnv} {g g' : E.S.State}

/-! ### One call -/

variable {refusal : Bool}

/-- A commit writes a version in the record's line, or nothing. -/
theorem Schema.redactionCommit (h : Schema E g) {ts : RedactionTerms}
    {done : Committed E} (hcom : redactionCommit E g refusal ts = .ok done) :
    redactionLine E g ts.record.uid = .ok done.line ∧
      if done.written then
        Schema E done.ledger ∧ lineage E done.ledger = (lineage E g).key done.line
      else done.ledger = g := by
  rw [Builtin.redactionCommit] at hcom
  split_ifs at hcom
  obtain ⟨superseded, -, hrest⟩ := ok_of_bind hcom
  cases superseded with
  | some ev => cases hrest
  | none =>
    obtain ⟨⟨line, events, head⟩, hres, hrest⟩ := ok_of_bind hrest
    obtain ⟨line', hline, hch⟩ := ok_of_bind hres
    obtain ⟨events', -, heq⟩ := ok_of_map hch
    obtain rfl : line' = line := (Prod.mk.inj heq).1
    -- the head divides the evidence so already, or a version is written
    cases head with
    | some head =>
      cases hrest
      exact ⟨hline, rfl⟩
    | none =>
      obtain ⟨⟨ev, g'⟩, hwr, rfl⟩ := ok_of_map hrest
      exact ⟨hline, h.redactionWrite hwr⟩

/-- What a reclassification that is accepted does. -/
theorem Schema.reclassWrite (h : Schema E g) {recorded : Bool} {ts : ReclassTerms}
    {ev : Nat} (hcall : reclassWrite E g refusal ts = .ok (ev, recorded, g')) :
    if recorded then
      Schema E g' ∧ lineage E g' = (lineage E g).add ts.newUID ts.oldUID ∧
        (ts.newUID ≠ ts.oldUID →
          ¬ Relation.ReflTransGen (lineage E g).above ts.oldUID ts.newUID) ∧
        ∀ new, ¬ (lineage E g).above new ts.oldUID
    else g' = g := by
  obtain ⟨existing, hpair, hrest⟩ := ok_of_bind hcall
  cases existing with
  | some existing =>
    dsimp only at hrest
    split_ifs at hrest
    cases hrest
    rfl
  | none =>
    obtain ⟨path, hpath, hrest⟩ := ok_of_bind hrest
    cases path with
    | some path => cases hrest
    | none =>
      obtain ⟨successors, hsuccessors, hrest⟩ := ok_of_bind hrest
      split at hrest
      · cases hrest
      next hoth =>
        split_ifs at hrest
        obtain ⟨⟨ev', g₁⟩, hwr, heq⟩ := ok_of_map hrest
        cases heq
        obtain ⟨hsch, hlin⟩ := h.reclassTransaction hwr
        refine ⟨hsch, hlin, fun hne hrch => ?_, fun new habove => ?_⟩
        · have hsome := (reclassSupersessionPath_spec hne.symm hpath).1.mpr
            (Relation.ReflTransGen.mono (fun _ _ => h.recorded_iff.mpr) _ _ hrch)
          cases hsome
        · have hnew := find?_eq_none.mp hoth new ((h.successors hsuccessors new).mpr habove)
          obtain rfl := not_not.mp (mt decide_eq_true hnew)
          -- an edge between the two records would have been recorded under the pair
          obtain ⟨edge, hedge, hlab, hnew, hold⟩ := habove
          obtain ⟨new, old, ⟨-, hnew', hold'⟩, node, hnode, htold⟩ := h.supersedes edge hedge hlab
          obtain rfl := hnew.unique hnew'
          obtain rfl := hold.unique hold'
          exact h.not_says_of_find (mem_disclosureKeys_reclass E.T) hpair node hnode htold

theorem reclassWrite_of_discloseReclassified {ts : ReclassTerms}
    {result : Nat × Bool × E.S.State} (h : discloseReclassified E g refusal ts = .ok result) :
    ts.newUID ≠ ts.oldUID ∧ reclassWrite E g refusal ts = .ok result := by
  rw [discloseReclassified] at h
  split_ifs at h with hsame
  exact ⟨hsame, h⟩

/-- A call that is accepted is a step of the lineage. -/
theorem Schema.step (h : Schema E g) (hacy : (lineage E g).Acyclic) {call : LedgerCall}
    {news : List Bytes} (hcall : call.run E g = .ok (g', news)) :
    Schema E g' ∧ (lineage E g).Step news (lineage E g') := by
  cases call with
  -- a version keys the end of its record's line
  | commit refusal ts =>
    obtain ⟨done, hdone, heq⟩ := ok_of_map hcall
    cases heq
    obtain ⟨hline, hdone⟩ := h.redactionCommit hdone
    obtain ⟨way, hway, -⟩ := (h.redactionLine_eq_ok_iff hacy).mp hline
    split_ifs at hdone
    · rw [hdone.2]
      exact ⟨hdone.1, .key hway⟩
    · rw [hdone]
      exact ⟨h, .stay⟩
  -- one that is recorded closes no cycle, and is the first of its old record
  | reclassify refusal ts =>
    obtain ⟨⟨ev, recorded, g₁⟩, hdone, heq⟩ := ok_of_map hcall
    obtain ⟨rfl, rfl⟩ := Prod.mk.inj heq
    obtain ⟨hne, hdone⟩ := reclassWrite_of_discloseReclassified hdone
    have hdone := h.reclassWrite hdone
    cases recorded with
    | true =>
      obtain ⟨hsch, hlin, hrch, hnew⟩ := hdone
      rw [hlin]
      exact ⟨hsch, .add (hrch hne) (hnew _)⟩
    | false =>
      obtain rfl : g₁ = g := hdone
      exact ⟨h, .stay⟩

/-- Calls that are accepted are a run of the lineage. -/
theorem Schema.run (h : Schema E g) (hacy : (lineage E g).Acyclic) {calls : List LedgerCall}
    {news : List Bytes} (hcs : runCalls E g calls = .ok (g', news)) :
    Schema E g' ∧ Lineage.State.Run (lineage E g) news (lineage E g') := by
  induction calls generalizing g news with
  | nil =>
    cases hcs
    exact ⟨h, .refl _⟩
  | cons call calls ih =>
    obtain ⟨⟨g₁, news₁⟩, hcall, hrest⟩ := ok_of_bind hcs
    obtain ⟨⟨g₂, news₂⟩, hrun, heq⟩ := ok_of_map hrest
    cases heq
    obtain ⟨hsch, hstep⟩ := h.step hacy hcall
    obtain ⟨hsch', hrun'⟩ := ih hsch (hstep.acyclic hacy) hrun
    exact ⟨hsch', .step hstep hrun'⟩

/-! ### Lines over time -/

theorem lower_uid (record : LedgerRecord) : record.uid.map Hex.lower = record.uid := by
  rw [LedgerRecord.uid, map_map]
  exact map_congr_left fun c _ => Hex.lower_lower c

theorem not_above_empty (new old : Bytes) : ¬ (lineage E E.S.empty).above new old := by
  rintro ⟨edge, hedge, -⟩
  rw [E.S.edges_empty] at hedge
  exact not_mem_nil hedge

theorem acyclic_empty : (lineage E E.S.empty).Acyclic := by
  intro uid hcycle
  obtain ⟨_, habove, -⟩ := Relation.TransGen.head'_iff.mp hcycle
  exact not_above_empty _ _ habove

/-- Once a version has been written for a record, in some line, later calls that are accepted leave
the record's line what it is exactly when they record no record on the way to it, the record itself
or one that its walk passes, as reclassifying one more.  The line of a record that reclassifies it
alone is the same then, unless that record keys a line itself or is too far from it. -/
theorem redactionLine_stable {before : List LedgerCall} {news : List Bytes} {refusal : Bool}
    {terms : RedactionTerms} {done : Committed E}
    (hbefore : runCalls E E.S.empty before = .ok (g, news))
    (hcommit : redactionCommit E g refusal terms = .ok done) (hwritten : done.written = true) :
    ∃ way, (lineage E g).Way terms.record.uid way done.line ∧ way.length < maxRedactionLine ∧
      ∀ later g' later', runCalls E done.ledger later = .ok (g', later') →
        (redactionLine E g' terms.record.uid = .ok done.line ↔ ∀ new ∈ later', new ∉ way) ∧
          ∀ record : LedgerRecord, redactionReclassifies E g' record.uid = .ok [terms.record.uid] →
            (redactionLine E g' record.uid = .ok done.line ↔
              redactionKeysALine E g' record.uid = .ok false ∧ (∀ new ∈ later', new ∉ way) ∧
                way.length + 1 < maxRedactionLine) := by
  obtain ⟨hschema, hrun⟩ := schema_empty.run acyclic_empty hbefore
  have hacyclic := hrun.acyclic acyclic_empty
  obtain ⟨hline, hdone⟩ := hschema.redactionCommit hcommit
  rw [hwritten] at hdone
  obtain ⟨hschema', hlineage⟩ := hdone
  obtain ⟨way, hway, hlength⟩ := (hschema.redactionLine_eq_ok_iff hacyclic).mp hline
  rw [lower_uid] at hway
  refine ⟨way, hway.way, hlength, ?_⟩
  -- the version that was written is one more step, after which the line is keyed
  have hstep : (lineage E g).Step [] (lineage E done.ledger) := hlineage ▸ .key hway
  have hway' := hway.way.of_step hstep nofun
  have hkeyed : (lineage E done.ledger).keyed done.line := hlineage ▸ .inr rfl
  have hacyclic' := hstep.acyclic hacyclic
  intro later g' later' hlater
  obtain ⟨hschema₂, hrun₂⟩ := hschema'.run hacyclic' hlater
  have hacyclic₂ := hrun₂.acyclic hacyclic'
  constructor
  · rw [hschema₂.redactionLine_eq_ok_iff hacyclic₂, lower_uid]
    constructor
    · rintro ⟨way', hline', -⟩
      exact ((Lineage.State.line_iff hacyclic' hway' hkeyed hrun₂).mp hline').2
    · intro hnews
      exact ⟨way, (Lineage.State.line_iff hacyclic' hway' hkeyed hrun₂).mpr ⟨rfl, hnews⟩, hlength⟩
  · intro record hparents
    have honly : (lineage E g').OnlyParent record.uid terms.record.uid := by
      obtain ⟨found, hfound, -, hover⟩ := hschema₂.reclassifies record.uid
      obtain rfl := Except.ok.inj (hparents.symm.trans hfound)
      exact fun uid => (hover uid).symm.trans mem_singleton
    have hkeys : ¬ (lineage E g').keyed record.uid ↔
        redactionKeysALine E g' record.uid = .ok false := by
      obtain ⟨keys, hread, hkeyed⟩ := hschema₂.keysALine record.uid
      rw [← hkeyed, hread, Bool.not_eq_true, Except.ok.injEq]
    rw [hschema₂.redactionLine_eq_ok_iff hacyclic₂, lower_uid, ← hkeys]
    constructor
    · rintro ⟨way', hline', hlength'⟩
      obtain ⟨rfl, hnot, hnews⟩ :=
        (Lineage.State.line_child_iff hacyclic' hway' hkeyed hrun₂ honly).mp hline'
      exact ⟨hnot, hnews, hlength'⟩
    · rintro ⟨hnot, hnews, hlength'⟩
      exact ⟨record.uid :: way, (Lineage.State.line_child_iff hacyclic' hway' hkeyed hrun₂
        honly).mpr ⟨rfl, hnot, hnews⟩, hlength'⟩

/-! ### A ledger to compute with -/

/-- A text of fewer than 256 bytes after its length. -/
def framed (s : Bytes) : Bytes := UInt8.ofNat s.length :: s

def unframed : Bytes → Option (Bytes × Bytes)
  | [] => none
  | length :: rest =>
    if length.toNat ≤ rest.length then some (rest.take length.toNat, rest.drop length.toNat) else none

/-- The entries that a blob frames one after another. -/
def framedEntries : (turns : Nat) → Bytes → Option (List (Bytes × Bytes))
  | _, [] => some []
  | 0, _ :: _ => none
  | turns + 1, blob@(_ :: _) =>
    (unframed blob).bind fun (key, rest) =>
      (unframed rest).bind fun (value, rest) =>
        (framedEntries turns rest).map ((key, value) :: ·)

theorem unframed_framed {s : Bytes} (h : s.length < 256) (rest : Bytes) :
    unframed (framed s ++ rest) = some (s, rest) := by
  have hlen : (UInt8.ofNat s.length).toNat = s.length := by
    exact Nat.mod_eq_of_lt h
  rw [framed, cons_append, unframed, hlen, if_pos (by simp), take_left, drop_left]

/-- Entries that were framed are read back. -/
theorem framedEntries_flatMap {entries : List (Bytes × Bytes)}
    (h : ∀ e ∈ entries, e.1.length < 256 ∧ e.2.length < 256) {turns : Nat}
    (hturns : entries.length ≤ turns) :
    framedEntries turns (entries.flatMap fun e => framed e.1 ++ framed e.2) =
      some entries := by
  induction entries generalizing turns with
  | nil => cases turns <;> rfl
  | cons e entries ih =>
    rw [forall_mem_cons] at h
    obtain ⟨turns, rfl⟩ : ∃ n, turns = n + 1 := ⟨turns - 1, by rw [length_cons] at hturns; omega⟩
    have hkey := unframed_framed h.1.1 (framed e.2 ++
      entries.flatMap fun e => framed e.1 ++ framed e.2)
    have hval := unframed_framed h.1.2
      (entries.flatMap fun e => framed e.1 ++ framed e.2)
    rw [flatMap_cons, append_assoc]
    rw [framed, cons_append] at hkey ⊢
    rw [framedEntries, hkey]
    show (unframed (framed e.2 ++ _)).bind _ = _
    rw [hval]
    show (framedEntries turns _).map _ = _
    rw [ih h.2 (Nat.le_of_succ_le_succ hturns)]
    rfl

theorem length_le_flatMap (ents : List (Bytes × Bytes)) :
    ents.length ≤ (ents.flatMap fun e => framed e.1 ++ framed e.2).length := by
  induction ents with
  | nil => exact Nat.le_refl 0
  | cons e ents ih =>
    rw [flatMap_cons, length_append, length_append, length_cons, framed, length_cons]
    omega

/-- Property maps of texts of fewer than 256 bytes. -/
def framedCodec : LedgerCodec where
  decode blob := (framedEntries blob.length blob).bind fun entries =>
    if h : KeyMap.Increasing entries then some ⟨entries, h⟩ else none
  encode props :=
    if ∀ entry ∈ props.entries, entry.1.length < 256 ∧ entry.2.length < 256 then
      some (props.entries.flatMap fun entry => framed entry.1 ++ framed entry.2)
    else none
  decode_encode props blob h := by
    split_ifs at h with hshort
    obtain rfl := Option.some.inj h
    rw [framedEntries_flatMap hshort (length_le_flatMap _), Option.bind_some,
      dif_pos props.increasing]

def framedEnv : LedgerEnv := ⟨measuring, framedCodec, ⟨2000, 2000, 1, by decide⟩, listStore⟩

def oneRecord (uid : String) : LedgerRecord :=
  ⟨text uid, text "ca", text uid, text uid, 1, [], [], noProps⟩

def oneVersion (uid : String) : RedactionTerms :=
  ⟨oneRecord uid, ⟨text "v", text "v", [], noProps⟩, text "p", [], [], text "ca", text "one",
    text "me", text "examiner", noProps⟩

def oneReclass (new old : String) : ReclassTerms :=
  ⟨oneRecord new, oneRecord old, [], text new ++ text old, [], text "ca", text "one", text "me",
    text "examiner", noProps⟩

def oneReclassification (new old : String) : LedgerCall := .reclassify false (oneReclass new old)

/-- The line of `b` before and after some calls that follow a version of `b`, itself recorded as
reclassifying `a`; and the line of another record after them. -/
def linesOfB (later : List LedgerCall) (other : String) : Option (Bytes × Bytes × Bytes) :=
  match runCalls framedEnv framedEnv.S.empty [oneReclassification "b" "a"] with
  | .error _ => none
  | .ok (g, _) =>
    match redactionCommit framedEnv g false (oneVersion "b") with
    | .error _ => none
    | .ok done =>
      match runCalls framedEnv done.ledger later with
      | .error _ => none
      | .ok (g, _) =>
        match redactionLine framedEnv g (text "b"), redactionLine framedEnv g (text other) with
        | .ok line, .ok line' => if done.written then some (done.line, line, line') else none
        | _, _ => none

/-- A run of the test is a run of the calls it is made of. -/
theorem runs_of_linesOfB {later : List LedgerCall} {other : String} {ls : Bytes × Bytes × Bytes}
    (h : linesOfB later other = some ls) :
    ∃ g news done, runCalls framedEnv framedEnv.S.empty [oneReclassification "b" "a"] = .ok (g, news) ∧
      redactionCommit framedEnv g false (oneVersion "b") = .ok done ∧ done.written = true ∧
        ∃ g' later', runCalls framedEnv done.ledger later = .ok (g', later') ∧
          redactionLine framedEnv g' (text "b") = .ok ls.2.1 := by
  revert h
  fun_cases linesOfB later other <;> rintro ⟨⟩
  next g news hbef done hcom g' later' hlater _ _ _ hline hwr =>
    exact ⟨g, news, done, hbef, hcom, hwr, g', later', hlater, hline⟩

/-- A version of `b` is written in the line of `a`; then `b` is recorded as reclassifying `c` too,
and its line is `b`. -/
theorem redactionLine_moves :
    linesOfB [oneReclassification "b" "c"] "a" = some (text "a", text "b", text "a") := by
  decide +kernel

/-- After the version of `b` a record `c` reclassifies `b`: the line of `b` is still `a`. -/
theorem redactionLine_stable_reclassified :
    ∃ g news done, runCalls framedEnv framedEnv.S.empty [oneReclassification "b" "a"] = .ok (g, news) ∧
      redactionCommit framedEnv g false (oneVersion "b") = .ok done ∧ done.written = true ∧
        ∃ g' later', runCalls framedEnv done.ledger [oneReclassification "c" "b"] = .ok (g', later') ∧
          ∃ way, (lineage framedEnv g).Way (oneRecord "b").uid way done.line ∧
            (redactionLine framedEnv g' (oneRecord "b").uid = .ok done.line ↔
              ∀ new ∈ later', new ∉ way) := by
  have hlines : linesOfB [oneReclassification "c" "b"] "c" = some (text "a", text "a", text "a") := by
    decide +kernel
  obtain ⟨g, news, done, hbefore, hcommit, hwritten, g', later', hlater, -⟩ :=
    runs_of_linesOfB hlines
  obtain ⟨way, hway, -, hstable⟩ := redactionLine_stable hbefore hcommit hwritten
  exact ⟨g, news, done, hbefore, hcommit, hwritten, g', later', hlater, way, hway,
    (hstable _ _ _ hlater).1⟩

/-! ### The forest of reclassifications -/

/-- The ledger after calls of `reclassWrite`: one that is refused leaves it as it is. -/
def reclassWrites (E : LedgerEnv) (g : E.S.State) (calls : List (Bool × ReclassTerms)) : E.S.State :=
  calls.foldl (fun g (refusal, terms) =>
    match reclassWrite E g refusal terms with
    | .ok (_, _, g') => g'
    | .error _ => g) g

/-- Reclassifications alone keep the lineage acyclic, with one successor for each record. -/
theorem Schema.reclassWrites (h : Schema E g) (hacy : (lineage E g).Acyclic)
    (hone : ∀ old new new', (lineage E g).above new old → (lineage E g).above new' old → new = new')
    {calls : List (Bool × ReclassTerms)} (hne : ∀ call ∈ calls, call.2.newUID ≠ call.2.oldUID) :
    (lineage E (reclassWrites E g calls)).Acyclic ∧
      ∀ old new new', (lineage E (reclassWrites E g calls)).above new old →
        (lineage E (reclassWrites E g calls)).above new' old → new = new' := by
  induction calls generalizing g with
  | nil => exact ⟨hacy, hone⟩
  | cons call calls ih =>
    obtain ⟨hne, hrest⟩ := forall_mem_cons.mp hne
    rw [Builtin.reclassWrites, foldl_cons]
    dsimp only
    split
    next _ recorded g' hcall =>
      have hcall := h.reclassWrite hcall
      cases recorded with
      | false => exact (show g' = g from hcall) ▸ ih h hacy hone hrest
      | true =>
        obtain ⟨hsch, hlin, hrch, hnone⟩ := hcall
        refine ih hsch ?_ ?_ hrest
        · rw [hlin]
          -- the search found no path back, and the old record had no successor
          exact (Lineage.State.Step.add (hrch hne) (hnone _)).acyclic hacy
        · rw [hlin]
          rintro old new new' (hnew | ⟨rfl, rfl⟩) (hnew' | ⟨rfl, hold⟩)
          · exact hone old new new' hnew hnew'
          · exact absurd (hold ▸ hnew) (hnone new)
          · exact absurd hnew' (hnone new')
          · rfl
    · exact ih h hacy hone hrest

/-- `c` is recorded as reclassifying the record without a uid, which reclassifies `a`. -/
def emptyUID : framedEnv.S.State :=
  reclassWrites framedEnv framedEnv.S.empty [(false, oneReclass "" "a"), (false, oneReclass "c" "")]

/-- A record that is written as reclassifying itself supersedes itself.  And the path from `c` to `a`
by way of the record without a uid is not from `c`. -/
theorem reclassWrites_own :
    ¬ (lineage framedEnv (reclassWrites framedEnv framedEnv.S.empty
      [(false, oneReclass "a" "a")])).Acyclic ∧
    reclassSupersessionPath framedEnv emptyUID (text "c") (text "a") = .ok (some [text "a"]) := by
  refine ⟨fun hacyclic => ?_, by decide +kernel⟩
  have hwritten : (match reclassWrite framedEnv framedEnv.S.empty false (oneReclass "a" "a") with
      | .ok (_, recorded, _) => recorded
      | .error _ => false) = true := by decide +kernel
  rw [reclassWrites, foldl_cons, foldl_nil] at hacyclic
  split at hwritten
  next _ recorded g hcall =>
    subst hwritten
    obtain ⟨-, hlineage, -⟩ := schema_empty.reclassWrite hcall
    dsimp only at hacyclic
    rw [hcall, hlineage] at hacyclic
    exact hacyclic (text "a") (.single (.inr ⟨by decide, by decide⟩))
  · cases hwritten

/-- Whatever calls are made to record a record as reclassifying another one, `SUPERSEDES` has no
cycle, and every record is superseded by one record at most.  On any ledger a path is found exactly
where one record is reached from another, and it is a shortest one, unless a record without a uid is
on the way. -/
theorem supersession_forest (E : LedgerEnv) :
    (∀ calls : List (Bool × ReclassTerms), (∀ call ∈ calls, call.2.newUID ≠ call.2.oldUID) →
      (lineage E (reclassWrites E E.S.empty calls)).Acyclic ∧
        ∀ old new new', (lineage E (reclassWrites E E.S.empty calls)).above new old →
          (lineage E (reclassWrites E E.S.empty calls)).above new' old → new = new') ∧
      ∀ g start target result, start ≠ target →
        reclassSupersessionPath E g start target = .ok result →
          (result.isSome ↔ Relation.ReflTransGen (Recorded E g) start target) ∧
            ([] = target ∨ ¬ Relation.ReflTransGen (Recorded E g) start [] →
              ∀ path, result = some path →
                Breadth.Shortest (Recorded E g) start target path) := by
  refine ⟨fun calls hne => schema_empty.reclassWrites acyclic_empty ?_ hne, ?_⟩
  · exact fun old new new' hnew => absurd hnew (not_above_empty new old)
  · exact fun g start target result hne hpath => reclassSupersessionPath_spec hne hpath

def threeCalls : List (Bool × ReclassTerms) :=
  [(false, oneReclass "b" "a"), (false, oneReclass "c" "b"), (false, oneReclass "a" "c")]

/-- `c` reclassifies `b`, and `b` reclassifies `a`; that `a` reclassifies `c` is refused. -/
theorem supersession_forest_three :
    ∃ g, reclassWrites framedEnv framedEnv.S.empty threeCalls = g ∧ (lineage framedEnv g).Acyclic ∧
      ∃ path, reclassSupersessionPath framedEnv g (text "c") (text "a") = .ok (some path) ∧
        Breadth.Shortest (Recorded framedEnv g) (text "c") (text "a") path := by
  obtain ⟨hforest, hpath⟩ := supersession_forest framedEnv
  have hfound : reclassSupersessionPath framedEnv (reclassWrites framedEnv framedEnv.S.empty
      threeCalls) (text "c") (text "a") = .ok (some [text "c", text "b", text "a"]) := by
    decide +kernel
  -- no record without a uid is on the way: a search for one finds none
  have hempty : reclassSupersessionPath framedEnv (reclassWrites framedEnv framedEnv.S.empty
      threeCalls) (text "c") [] = .ok none := by
    decide +kernel
  have hnot := (hpath _ _ _ _ (by decide) hempty).1.not.mp (by decide)
  exact ⟨_, rfl, (hforest _ (by decide)).1, _, hfound,
    (hpath _ _ _ _ (by decide) hfound).2 (.inr hnot) _ rfl⟩

end Mutant.Builtin
