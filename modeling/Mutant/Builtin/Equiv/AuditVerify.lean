import Mutant.Builtin.Equiv.Audit
import Mutant.Lib.HashChain
import Mutant.Security.Equiv.RecordKeys

/-!
# What `audit_verify` says of a log

The walk passes exactly the entries that follow one another (`auditLoop_eq_none_iff`, `walks_iff`).
On a log that was written honestly these are the entries a document can hold
(`auditVerify_auditFile`).
-/

namespace Mutant.Builtin

open List Utf8
open Option hiding map_map
open Mutant.Security (Bytes Primitives text)

variable {r : AuditReading} {raw : Json} {rs : List AuditReading} {raws : List Json}
  {e : AuditEntry} {events : List AuditEvent}

/-! ### The walk -/

/-- What the walk reads in an entry. -/
structure AuditReading where
  seq : Int
  nano : Int
  event : Bytes
  stage : Bytes
  prev : Bytes
  hash : Bytes
  rendered : Bytes
deriving DecidableEq, Repr

/-- The entry as the walk reads it. -/
def readAuditEntry (T : TextOps) (raw : Json) : Option AuditReading :=
  match raw with
  | .object entry =>
    (auditEntrySeq raw).map fun seq =>
      { seq := seq
        nano := manifestInt entry (text "unix_nano")
        event := stringField entry (text "event")
        stage := stringField entry (text "stage")
        prev := T.toLower (stringField entry (text "prev"))
        hash := T.toLower (stringField entry (text "hash"))
        rendered := stringField entry (text "at") }
  | _ => none

/-- The entries as the walk reads them. -/
abbrev ReadAs (T : TextOps) : List Json → List AuditReading → Prop :=
  List.Forall₂ fun raw r => readAuditEntry T raw = some r

namespace AuditReading

/-- The link that was recomputed, and the time that was rendered, are the entry's own. -/
structure Holds (P : Primitives) (F : TimeFormat) (r : AuditReading) : Prop where
  link : auditLink P r.prev r.seq r.nano r.event r.stage = r.hash
  time : r.rendered = F.format r.nano

/-- The entry may stand where the walk is. -/
structure Follows (w : AuditWalk) (r : AuditReading) : Prop where
  seq : w.expectedSeq ≠ 0 → r.seq = w.expectedSeq
  genesis : w.previous = [] → r.seq = 1 → r.prev = auditGenesis
  prev : w.previous ≠ [] → r.prev = w.previous

/-- The walk after the entry. -/
def after (w : AuditWalk) (r : AuditReading) : AuditWalk :=
  { previous := r.hash
    computed := r.hash
    checked := w.checked + 1
    firstSeq := if w.firstSeq = 0 then r.seq else w.firstSeq
    lastSeq := r.seq
    expectedSeq := r.seq + 1 }

/-- One entry follows another. -/
def Next (a b : AuditReading) : Prop := b.prev = a.hash ∧ b.seq = a.seq + 1

end AuditReading

variable {P : Primitives} {F : TimeFormat} {T : TextOps}

theorem AuditReading.Holds.hash_ne_nil (h : r.Holds P F) : r.hash ≠ [] := by
  rw [← h.link]
  apply auditLink_ne_nil

/-- An entry's number is read only when it is positive. -/
theorem one_le_of_auditEntrySeq {seq : Int} (h : auditEntrySeq raw = some seq) : 1 ≤ seq := by
  cases raw with
  | object mems =>
    rw [auditEntrySeq] at h
    split at h
    · exact of_decide_eq_true (filter_eq_some_iff.mp h).2
    · cases h
  | _ => cases h

theorem auditEntrySeq_of_read (h : readAuditEntry T raw = some r) :
    auditEntrySeq raw = some r.seq := by
  cases raw with
  | object mems =>
    obtain ⟨seq, hseq, rfl⟩ := map_eq_some_iff.mp h
    exact hseq
  | _ => cases h

/-- A step passes exactly an entry that holds and may stand there. -/
theorem auditStep_eq_ok_iff (w w' : AuditWalk) (idx : Nat) (raw : Json) :
    auditStep P F T w idx raw = .ok w' ↔
      ∃ r, readAuditEntry T raw = some r ∧ r.Follows w ∧ r.Holds P F ∧ w' = r.after w := by
  cases raw with
  | object entry =>
    simp only [auditStep, readAuditEntry]
    cases hseq : auditEntrySeq (.object entry) with
    | none => simp
    | some seq =>
      simp only [map_some, some.injEq, exists_eq_left']
      constructor
      -- each check that was passed is one field of what is asked
      · intro h
        generalize hfst : (if w.firstSeq = 0 then seq else w.firstSeq) = first at h
        split_ifs at h with h₁ h₂ h₃ h₄ h₅
        rw [not_ne_iff] at h₄ h₅
        refine ⟨⟨fun hne => ?_, fun hnil hone => ?_, fun hne => ?_⟩, ⟨h₄, h₅⟩, ?_⟩
        · by_contra hseq
          exact h₁ ⟨hne, hseq⟩
        · by_contra hprev
          exact h₂ ⟨hnil, hone, hprev⟩
        · by_contra hprev
          exact h₃ ⟨hne, hprev⟩
        · rw [AuditReading.after, hfst]
          exact (Except.ok.inj h).symm
      · rintro ⟨hfol, hhold, rfl⟩
        rw [if_neg fun h => h.2 (hfol.seq h.1), if_neg fun h => h.2.2 (hfol.genesis h.1 h.2.1),
          if_neg fun h => h.2 (hfol.prev h.1), if_neg (not_ne_iff.mpr hhold.link),
          if_neg (not_ne_iff.mpr hhold.time)]
        rfl
  | _ => simp [auditStep, readAuditEntry]

/-- The entries hold, each where the walk is then. -/
def Walks (P : Primitives) (F : TimeFormat) : AuditWalk → List AuditReading → Prop
  | _, [] => True
  | w, r :: rs => r.Follows w ∧ r.Holds P F ∧ Walks P F (r.after w) rs

/-- The loop passes exactly the entries that hold, each where the walk is then. -/
theorem auditLoop_eq_none_iff (w w' : AuditWalk) (idx : Nat) (raws : List Json) :
    auditLoop P F T w idx raws = (w', none) ↔
      ∃ rs, ReadAs T raws rs ∧ Walks P F w rs ∧ w' = rs.foldl (fun w r => r.after w) w := by
  induction raws generalizing w idx with
  | nil => simp [auditLoop, Walks, eq_comm]
  | cons raw raws ih =>
    simp only [forall₂_cons_left_iff, auditLoop]
    cases hstep : auditStep P F T w idx raw with
    -- the walk stops here, so no reading of this entry can follow and hold
    | error broken =>
      simp only [Prod.mk.injEq, reduceCtorEq, and_false, false_iff]
      rintro ⟨_, ⟨r, rest, hr, -, rfl⟩, ⟨hfol, hhold, -⟩, -⟩
      have := (auditStep_eq_ok_iff w (r.after w) idx raw).mpr ⟨r, hr, hfol, hhold, rfl⟩
      rw [hstep] at this
      cases this
    | ok w₁ =>
      obtain ⟨r, hr, hfol, hhold, rfl⟩ := (auditStep_eq_ok_iff w w₁ idx raw).mp hstep
      simp only [ih]
      constructor
      · rintro ⟨rest, hrest, hwalks, rfl⟩
        exact ⟨r :: rest, ⟨r, rest, hr, hrest, rfl⟩, ⟨hfol, hhold, hwalks⟩, rfl⟩
      · rintro ⟨_, ⟨r', rest, hr', hrest, rfl⟩, ⟨-, -, hwalks⟩, rfl⟩
        obtain rfl := some.inj (hr.symm.trans hr')
        exact ⟨rest, hrest, hwalks, rfl⟩

/-- From an entry on, the walk passes the entries that follow one another. -/
theorem walks_after_iff (w : AuditWalk) (r : AuditReading) (rs : List AuditReading)
    (hr : r.hash ≠ []) (hseq : ∀ r' ∈ r :: rs, 1 ≤ r'.seq) :
    Walks P F (r.after w) rs ↔ (∀ r' ∈ rs, r'.Holds P F) ∧ (r :: rs).IsChain AuditReading.Next := by
  induction rs generalizing w r with
  | nil => simp [Walks]
  | cons r' rs ih =>
    have hpos : 1 ≤ r.seq := hseq r mem_cons_self
    -- behind an entry the walk has a hash and a number to compare with
    have hfol : r'.Follows (r.after w) ↔ AuditReading.Next r r' := by
      constructor
      · intro h
        exact ⟨h.prev hr, h.seq (show r.seq + 1 ≠ 0 by omega)⟩
      · intro h
        exact ⟨fun _ => h.2, fun hnil => absurd hnil hr, fun _ => h.1⟩
    rw [Walks, isChain_cons_cons, hfol, forall_mem_cons]
    constructor
    · rintro ⟨hnext, hhold, hwalks⟩
      obtain ⟨hall, hch⟩ := (ih _ r' hhold.hash_ne_nil (forall_mem_cons.mp hseq).2).mp hwalks
      exact ⟨⟨hhold, hall⟩, hnext, hch⟩
    · rintro ⟨⟨hhold, hall⟩, hnext, hch⟩
      exact ⟨hnext, hhold, (ih _ r' hhold.hash_ne_nil (forall_mem_cons.mp hseq).2).mpr ⟨hall, hch⟩⟩

/-- The walk passes the entries that follow one another, the first one of all from the zeros. -/
theorem walks_iff (rs : List AuditReading) (hseq : ∀ r ∈ rs, 1 ≤ r.seq) :
    Walks P F {} rs ↔ (∀ r ∈ rs, r.Holds P F) ∧ rs.IsChain AuditReading.Next ∧
      ∀ r ∈ rs.head?, r.seq = 1 → r.prev = auditGenesis := by
  cases rs with
  | nil => simp [Walks]
  | cons r rs =>
    have hfol : r.Follows {} ↔ (r.seq = 1 → r.prev = auditGenesis) :=
      ⟨fun h => h.genesis rfl, fun h => ⟨fun hne => absurd rfl hne, fun _ => h, fun hne => absurd rfl hne⟩⟩
    rw [Walks, hfol, forall_mem_cons]
    simp only [head?_cons, mem_some_iff, forall_eq']
    constructor
    · rintro ⟨hgenesis, hhold, hwalks⟩
      obtain ⟨hall, hch⟩ :=
        (walks_after_iff _ r rs hhold.hash_ne_nil hseq).mp hwalks
      exact ⟨⟨hhold, hall⟩, hch, hgenesis⟩
    · rintro ⟨⟨hhold, hall⟩, hch, hgenesis⟩
      exact ⟨hgenesis, hhold, (walks_after_iff _ r rs hhold.hash_ne_nil hseq).mpr ⟨hall, hch⟩⟩

theorem Walks.holds {w : AuditWalk} (h : Walks P F w rs) : ∀ r ∈ rs, r.Holds P F := by
  induction rs generalizing w with
  | nil => simp
  | cons r rs ih =>
    rw [forall_mem_cons]
    exact ⟨h.2.1, ih h.2.2⟩

/-- The last hash is what the walk computed. -/
theorem computed_foldl_after (rs : List AuditReading) (w : AuditWalk) :
    (rs.foldl (fun w r => r.after w) w).computed = (rs.getLast?.map (·.hash)).getD w.computed := by
  induction rs using reverseRecOn with
  | nil => rfl
  | append_singleton rs r ih =>
    rw [foldl_append, getLast?_concat]
    rfl

/-! ### The answer -/

/-- The answer shows intact links, a matching head and a matching anchor. -/
structure AuditAnswer.Passes (answer : AuditAnswer) : Prop where
  links : answer.report.linksIntact = true
  head : answer.headMatches = true
  anchor : answer.anchorMatches = true

/-- The walk over a whole log: no entry is missing in front, and the rest is a walk. -/
theorem auditWalk_linksIntact_iff (ents : List Json) (computed : Bytes) :
    (auditWalk P F T ents).linksIntact = true ∧ (auditWalk P F T ents).computedHead = computed ↔
      auditFrontCheck ents = none ∧
        ∃ rs, ReadAs T ents rs ∧ Walks P F {} rs ∧
          (rs.getLast?.map (·.hash)).getD [] = computed := by
  simp only [auditWalk]
  cases hfr : auditFrontCheck ents with
  | some broken => simp
  | none =>
    simp only [true_and]
    cases hloop : auditLoop P F T {} 0 ents with
    -- from an empty walk, the last hash it has seen is the last of the readings
    | mk w broken =>
      simp only [isNone_iff_eq_none]
      constructor
      · rintro ⟨rfl, rfl⟩
        obtain ⟨rs, hrs, hwalks, rfl⟩ := (auditLoop_eq_none_iff {} w 0 ents).mp hloop
        exact ⟨rs, hrs, hwalks, (computed_foldl_after rs {}).symm⟩
      · rintro ⟨rs, hrs, hwalks, rfl⟩
        have := (auditLoop_eq_none_iff {} _ 0 ents).mpr ⟨rs, hrs, hwalks, rfl⟩
        obtain ⟨rfl, rfl⟩ := Prod.mk.inj (hloop.symm.trans this)
        exact ⟨rfl, computed_foldl_after rs {}⟩

/-- When `audit_verify` reports intact links, a matching head and a matching anchor. -/
theorem auditVerify_passes_iff (raw head : Bytes) :
    (∃ ans, auditVerify P F T raw (some head) = .ok ans ∧ ans.Passes) ↔
      ∃ doc ents rs, Json.decodeMap raw = some doc ∧
        stringField doc (text "algorithm") = auditChainVersion ∧
        Json.member? (text "log") doc = some (.array ents) ∧
        auditFrontCheck ents = none ∧ ReadAs T ents rs ∧ Walks P F {} rs ∧
        rs.getLast?.map (·.hash) = some (T.toLower (T.trimSpace head)) ∧
        T.toLower (stringField doc (text "head")) = T.toLower (T.trimSpace head) := by
  simp only [auditVerify, map_some, getD_some]
  constructor
  · rintro ⟨ans, hans, hlinks, hhead, hanchor⟩
    split at hans
    · cases hans
    · rename_i doc hdoc
      split_ifs at hans with halg
      rw [not_ne_iff] at halg
      split at hans
      · rename_i ents hlog
        cases hans
        simp only [Bool.and_eq_true, decide_eq_true_eq] at hhead hanchor
        obtain ⟨hfr, rs, hrs, hwalks, hlast⟩ :=
          (auditWalk_linksIntact_iff ents _).mp ⟨hlinks, rfl⟩
        refine ⟨doc, ents, rs, hdoc, halg, hlog, hfr, hrs, hwalks, ?_,
          hhead.2.trans hanchor.2.symm⟩
        rw [← hanchor.2] at hlast
        -- an empty log computes no head, and an anchor is never empty
        cases hget : rs.getLast?.map (·.hash) with
        | none =>
          rw [hget] at hlast
          exact absurd hlast.symm hanchor.1
        | some hash =>
          rw [hget] at hlast
          exact congrArg some hlast
      · cases hans
  · rintro ⟨doc, ents, rs, hdoc, halg, hlog, hfr, hrs, hwalks, hlast, hhead⟩
    obtain ⟨hlinks, hcomputed⟩ := (auditWalk_linksIntact_iff (P := P) (F := F) ents
      (T.toLower (T.trimSpace head))).mpr ⟨hfr, rs, hrs, hwalks, by rw [hlast]; rfl⟩
    -- a link that holds is the text of a hash, so the head is not empty
    have hne : T.toLower (T.trimSpace head) ≠ [] := by
      obtain ⟨r, hr, hhash⟩ := map_eq_some_iff.mp hlast
      rw [← hhash]
      exact (hwalks.holds r (mem_of_getLast? hr)).hash_ne_nil
    simp only [hdoc, halg, ne_eq, hlog]
    refine ⟨_, rfl, hlinks, ?_, ?_⟩
    · simp only [hhead, hcomputed, hne, not_false_eq_true, decide_true, Bool.and_self]
    · simp only [hcomputed, hne, not_false_eq_true, decide_true, Bool.and_self]

/-! ### Where a log starts -/

section

variable (h : ReadAs T raws rs)

include h

theorem filterMap_read : raws.filterMap (readAuditEntry T) = rs := by
  induction h with
  | nil => rfl
  | cons hr _ ih => rw [filterMap_cons_some hr, ih]

theorem one_le_seq_of_forall₂ : ∀ r ∈ rs, 1 ≤ r.seq := by
  induction h with
  | nil => simp
  | cons hr _ ih =>
    rw [forall_mem_cons]
    exact ⟨one_le_of_auditEntrySeq (auditEntrySeq_of_read hr), ih⟩

theorem head?_read : raws.head?.bind auditEntrySeq = rs.head?.map (·.seq) := by
  cases h with
  | nil => rfl
  | cons hr _ => exact auditEntrySeq_of_read hr

/-- The log starts where one that ends there starts. -/
theorem auditFrontCheck_eq_none_iff :
    auditFrontCheck raws = none ↔
      ∀ first ∈ rs.head?, ∀ last ∈ rs.getLast?, first.seq = auditFirstRetainedFor last.seq := by
  have hlast := head?_read (forall₂_reverse_iff.mpr h)
  rw [head?_reverse, head?_reverse] at hlast
  rw [auditFrontCheck, head?_read h, hlast]
  cases hfst : rs.head? with
  | none => simp
  | some first =>
    cases hend : rs.getLast? with
    | none => simp
    | some last => simp

end

/-- The numbers of entries that follow one another. -/
theorem seq_getLast (h : rs.IsChain AuditReading.Next)
    {first last : AuditReading} (hfst : first ∈ rs.head?) (hlast : last ∈ rs.getLast?) :
    last.seq + 1 = first.seq + rs.length := by
  induction rs generalizing first with
  | nil => cases hfst
  | cons r rs ih =>
    cases hfst
    cases rs with
    | nil =>
      cases hlast
      rfl
    | cons r' rs =>
      rw [isChain_cons_cons] at h
      have := ih h.2 rfl (by rwa [getLast?_cons_cons] at hlast)
      rw [h.1.2] at this
      rw [length_cons]
      omega

/-- The number the verifier computes is the chain's. -/
theorem auditFirstRetainedFor_eq (n : Nat) : auditFirstRetainedFor n = auditDropped n + 1 := by
  have hn := auditDropped_eq n
  have hretained : (auditRetained : Int) = 4096 := rfl
  have hquarter : ((auditRetained / 4 : Nat) : Int) = 1024 := rfl
  unfold auditFirstRetainedFor
  rw [hquarter]
  dsimp only
  split_ifs at hn ⊢ <;> omega

/-! ### A log that was written -/

/-- The entry as a document that holds it is read. -/
def AuditEntry.reading (F : TimeFormat) (e : AuditEntry) : AuditReading :=
  { seq := e.seq
    nano := unixNano e.at_
    event := e.event
    stage := e.stage
    prev := e.prev
    hash := e.hash
    rendered := F.format (unixNano e.at_) }

/-- What the entry's link is the hash of. -/
def AuditReading.message (r : AuditReading) : Bytes :=
  auditMessage r.prev r.seq r.nano r.event r.stage

theorem holds_auditLog (prev : Bytes) (n : Nat) (events : List AuditEvent) :
    ∀ e ∈ auditLog P prev n events, (e.reading F).Holds P F := by
  induction events generalizing prev n with
  | nil => simp [auditLog]
  | cons e events ih =>
    rw [auditLog, forall_mem_cons]
    exact ⟨⟨by simp only [AuditEntry.reading], by simp only [AuditEntry.reading]⟩, ih _ _⟩

/-- The number of the last entry. -/
theorem seq_getLast_auditLog (prev : Bytes) (n : Nat) (events : List AuditEvent) :
    ∀ e ∈ (auditLog P prev n events).getLast?, e.seq = wrap64 (n + events.length) := by
  induction events using reverseRecOn with
  | nil => simp [auditLog]
  | append_singleton events e ih =>
    intro e' he'
    rw [auditLog_append, auditLog, auditLog, getLast?_concat] at he'
    obtain rfl := some.inj he'
    rw [length_append, length_singleton, Int.natCast_add, Int.natCast_add, Int.natCast_one,
      Int.add_assoc]

/-- The entry as its own document is read: strings in UTF-8, the time as it was rendered. -/
def AuditEntry.written (F : TimeFormat) (e : AuditEntry) : AuditReading :=
  { e.reading F with
    event := Utf8.repair e.event
    stage := Utf8.repair e.stage
    rendered := F.format e.at_ }

theorem int64?_ofInt {i : Int} (hlow : -2 ^ 63 ≤ i) (hhigh : i < 2 ^ 63) :
    int64? (Decimal.ofInt i) = some i := by
  rw [int64?, Decimal.toInt?_ofInt, filter_some, if_pos (decide_eq_true ⟨hlow, hhigh⟩)]

/-- The members of the entry's document, as they are read. -/
def AuditEntry.members (F : TimeFormat) (e : AuditEntry) : List (Bytes × Json) :=
  [(text "at", .string (F.format e.at_)),
   (text "event", .string (Utf8.repair e.event)),
   (text "hash", .string e.hash),
   (text "prev", .string e.prev),
   (text "seq", jsonInt e.seq),
   (text "stage", .string (Utf8.repair e.stage)),
   (text "unix_nano", jsonInt (unixNano e.at_))]

theorem repair_auditEntryDocument (hF : F.Correct) (hprev : IsLinkText e.prev)
    (hhash : IsLinkText e.hash) : (auditEntryDocument F e).repair = .object (e.members F) := by
  rw [auditEntryDocument, Json.repair, Json.repairMembers_eq_map rfl, AuditEntry.members]
  simp only [map_cons, map_nil, Json.repair, jsonInt, hprev.repair, hhash.repair,
    repair_of_valid (valid_of_ascii (hF.ascii e.at_))]

/-- An entry is read from its document. -/
theorem readAuditEntry_document (hF : F.Correct) (hT : T.Correct)
    (hprev : IsLinkText e.prev) (hhash : IsLinkText e.hash) (hlow : 1 ≤ e.seq)
    (hhigh : e.seq < 2 ^ 63) :
    readAuditEntry T (auditEntryDocument F e).repair = some (e.written F) := by
  -- each field in turn
  have hseq : auditEntrySeq (.object (e.members F)) = some e.seq := by
    have hmem : Json.member? (text "seq") (e.members F) = some (.number (Decimal.ofInt e.seq)) := rfl
    rw [auditEntrySeq, hmem]
    simp only [int64?_ofInt (Int.le_trans (by decide) hlow) hhigh, filter_some, hlow,
      decide_true, if_true]
  have hnano : manifestInt (e.members F) (text "unix_nano") = unixNano e.at_ := by
    have hmem : Json.member? (text "unix_nano") (e.members F) =
        some (.number (Decimal.ofInt (unixNano e.at_))) := rfl
    rw [manifestInt, hmem]
    simp only [int64?_ofInt (wrap64_spec e.at_).1 (wrap64_spec e.at_).2.1, unixNano, getD_some]
  have hprevField : stringField (e.members F) (text "prev") = e.prev := rfl
  have hhashField : stringField (e.members F) (text "hash") = e.hash := rfl
  have heventField : stringField (e.members F) (text "event") = repair e.event := rfl
  have hstageField : stringField (e.members F) (text "stage") = repair e.stage := rfl
  have htimeField : stringField (e.members F) (text "at") = F.format e.at_ := rfl
  rw [repair_auditEntryDocument hF hprev hhash, readAuditEntry, hseq]
  simp only [hnano, hprevField, hhashField, heventField, hstageField, htimeField,
    hprev.toLower hT, hhash.toLower hT, map_some, AuditEntry.written, AuditEntry.reading]

theorem good_jsonInt (i : Int) : (jsonInt i).Good := by
  intro t ht
  obtain rfl := mem_singleton.mp ht
  exact Json.isNumber_ofInt i

theorem good_auditEntryDocument (e : AuditEntry) : (auditEntryDocument F e).Good := by
  rw [auditEntryDocument, Json.good_object_iff]
  simp only [forall_mem_cons, Json.good_string, good_jsonInt, true_and, not_mem_nil,
    false_implies, implies_true]

/-- The document of a snapshot is one that can be written. -/
theorem good_auditDocument (snap : AuditSnapshot) (now : Int) :
    (auditDocument F snap now).Good := by
  have hlog : (Json.array (snap.entries.map (auditEntryDocument F))).Good := by
    rw [Json.good_array_iff]
    intro item hitem
    obtain ⟨e, -, rfl⟩ := mem_map.mp hitem
    exact good_auditEntryDocument e
  rw [auditDocument, Json.good_object_iff]
  simp only [forall_mem_cons, Json.good_string, Json.good_bool, good_jsonInt, hlog, true_and,
    not_mem_nil, false_implies, implies_true]

/-- The document of a snapshot nests as deep as a reader allows. -/
theorem depth_auditDocument (snap : AuditSnapshot) (now : Int) :
    (auditDocument F snap now).depth ≤ Json.maxNestingDepth := by
  have hents : Json.itemsDepth (snap.entries.map (auditEntryDocument F)) ≤ 1 := by
    apply Json.itemsDepth_le
    intro item hitem
    obtain ⟨e, -, rfl⟩ := mem_map.mp hitem
    exact Nat.le_refl 1
  simp only [auditDocument, Json.depth, Json.membersDepth, jsonInt, Json.maxNestingDepth]
  omega

/-- The members of the document, as they are read. -/
theorem decodeMap_auditFile {snap : AuditSnapshot} (hhead : IsLinkText snap.head) (now : Int) :
    ∃ doc, Json.decodeMap (auditFile F snap now) = some doc ∧
      stringField doc (text "algorithm") = auditChainVersion ∧
      Json.member? (text "log") doc =
        some (.array (snap.entries.map fun e => (auditEntryDocument F e).repair)) ∧
      stringField doc (text "head") = snap.head := by
  have hspace : ∀ b ∈ [(0x0A : UInt8)], Json.isSpace b = true := forall_mem_singleton.mpr rfl
  have hdec := Json.decode_render Json.indented 0 (good_auditDocument (F := F) snap now)
    (depth_auditDocument snap now) hspace
  rw [auditDocument, Json.repair] at hdec
  refine ⟨_, by rw [auditFile, auditDocument, Json.decodeMap, hdec], ?_, ?_, ?_⟩
  · exact repair_of_valid rfl
  · show some (Json.array (Json.repairItems (snap.entries.map (auditEntryDocument F)))) = _
    rw [Json.repairItems_eq_map, map_map]
    rfl
  · exact hhead.repair

/-- The links of a log are the texts of hashes. -/
theorem isLinkText_auditLog {prev : Bytes} (hprev : IsLinkText prev) (n : Nat)
    (events : List AuditEvent) :
    ∀ e ∈ auditLog P prev n events, IsLinkText e.prev ∧ IsLinkText e.hash := by
  induction events generalizing prev n with
  | nil => simp [auditLog]
  | cons e events ih =>
    rw [auditLog, forall_mem_cons]
    exact ⟨⟨hprev, isLinkText_auditLink ..⟩, ih (isLinkText_auditLink ..) (n + 1)⟩

/-- The numbers of a log are positive and fit an `int64`. -/
theorem seq_auditLog (prev : Bytes) (n : Nat) (events : List AuditEvent)
    (hn : n + events.length < 2 ^ 63) :
    ∀ e ∈ auditLog P prev n events, 1 ≤ e.seq ∧ e.seq < 2 ^ 63 := by
  induction events generalizing prev n with
  | nil => simp [auditLog]
  | cons e events ih =>
    rw [length_cons] at hn
    rw [auditLog, forall_mem_cons]
    refine ⟨?_, ih _ (n + 1) (by omega)⟩
    simp only [wrap64_eq_self (show -2 ^ 63 ≤ (n : Int) + 1 by omega) (by omega)]
    omega

/-- The entries of a log follow one another. -/
theorem isChain_written (prev : Bytes) (n : Nat) (events : List AuditEvent)
    (hn : n + events.length < 2 ^ 63) :
    ((auditLog P prev n events).map (AuditEntry.written F)).IsChain AuditReading.Next ∧
      ∀ e ∈ (auditLog P prev n events).head?, e.prev = prev ∧ e.seq = n + 1 := by
  induction events generalizing prev n with
  | nil => exact ⟨.nil, by simp [auditLog]⟩
  | cons e events ih =>
    rw [length_cons] at hn
    have hseq : wrap64 (n + 1) = n + 1 := wrap64_eq_self (by omega) (by omega)
    obtain ⟨hch, hhead⟩ := ih (auditLink P prev (wrap64 (n + 1)) (unixNano e.at_) e.event e.stage)
      (n + 1) (by omega)
    refine ⟨?_, by simp [auditLog, hseq]⟩
    rw [auditLog, map_cons, isChain_cons]
    refine ⟨fun r hr => ?_, hch⟩
    rw [head?_map] at hr
    obtain ⟨e', he', rfl⟩ := map_eq_some_iff.mp hr
    obtain ⟨hprev, hseq'⟩ := hhead e' he'
    refine ⟨hprev, ?_⟩
    simp only [AuditEntry.written, AuditEntry.reading, hseq', hseq, Int.natCast_add, Int.natCast_one]

/-- A document can hold the event: strings in UTF-8, and a time counted in an `int64`. -/
structure AuditEvent.Sound (e : AuditEvent) : Prop where
  event : Utf8.valid e.event = true
  stage : Utf8.valid e.stage = true
  time : unixNano e.at_ = e.at_

/-- What is hashed for the entries a chain kept, and for them as they are read. -/
def WrittenMessage (P : Primitives) (events : List AuditEvent) (message : Bytes) : Prop :=
  ∃ e ∈ (auditRun P events).snapshot.entries,
    message = auditMessage e.prev e.seq (unixNano e.at_) e.event e.stage ∨
      message = auditMessage e.prev e.seq (unixNano e.at_) (Utf8.repair e.event) (Utf8.repair e.stage)

/-- The entry of an event holds as it is read exactly where the document can hold it. -/
theorem holds_written_iff (hF : F.Correct) {msgs : Bytes → Prop}
    (hfree : P.CollisionFree msgs) (he : (e.reading F).Holds P F)
    (hmsg : msgs (e.reading F).message) (hwr : msgs (e.written F).message) :
    (e.written F).Holds P F ↔ AuditEvent.Sound ⟨e.event, e.stage, e.at_⟩ := by
  constructor
  · intro h
    have hdigest : P.sha256 (e.written F).message = P.sha256 (e.reading F).message :=
      Vector.toList_inj.mp (Hex.encode_inj (h.link.trans he.link.symm))
    obtain ⟨-, -, -, hev, hstage⟩ := auditMessage_inj (hfree _ _ hwr hmsg hdigest)
    exact
      { event := repair_eq_self_iff.mp hev
        stage := repair_eq_self_iff.mp hstage
        time := (hF.injective _ _ h.time).symm }
  · intro h
    constructor
    · show auditLink P e.prev e.seq (unixNano e.at_) (repair e.event) (repair e.stage) = e.hash
      rw [repair_of_valid h.event, repair_of_valid h.stage]
      exact he.link
    · exact congrArg F.format h.time.symm

theorem forall_auditLog_iff (p : AuditEvent → Prop) (prev : Bytes) (n : Nat)
    (events : List AuditEvent) :
    (∀ e ∈ auditLog P prev n events, p ⟨e.event, e.stage, e.at_⟩) ↔ ∀ e ∈ events, p e := by
  induction events generalizing prev n with
  | nil => simp [auditLog]
  | cons e events ih => rw [auditLog, forall_mem_cons, forall_mem_cons, ih]

/-- The numbers of what a chain kept stay below the bound. -/
theorem length_retained (events : List AuditEvent) (hcnt : events.length < 2 ^ 63) :
    auditDropped events.length + (events.drop (auditDropped events.length)).length < 2 ^ 63 := by
  have hle := auditDropped_le events.length
  rw [length_drop]
  omega

/-- The document of what a chain kept, as it is read. -/
theorem read_snapshot (hF : F.Correct) (hT : T.Correct) (events : List AuditEvent)
    (hcnt : events.length < 2 ^ 63) :
    ReadAs T ((auditRun P events).snapshot.entries.map fun e => (auditEntryDocument F e).repair)
      ((auditRun P events).snapshot.entries.map (AuditEntry.written F)) := by
  rw [ReadAs, forall₂_map_left_iff, forall₂_map_right_iff, forall₂_same, entries_snapshot]
  intro e he
  obtain ⟨hprev, hhash⟩ := isLinkText_auditLog
    (isLinkText_auditLast isLinkText_auditGenesis 0 _) _ _ e he
  obtain ⟨hlow, hhigh⟩ := seq_auditLog _ _ _ (length_retained events hcnt) e he
  exact readAuditEntry_document hF hT hprev hhash hlow hhigh

/-- What a chain kept follows one another, from where it starts. -/
theorem isChain_snapshot (events : List AuditEvent) (hcnt : events.length < 2 ^ 63) :
    ((auditRun P events).snapshot.entries.map (AuditEntry.written F)).IsChain AuditReading.Next ∧
      ∀ e ∈ (auditRun P events).snapshot.entries.head?,
        e.seq = auditDropped events.length + 1 ∧ (e.seq = 1 → e.prev = auditGenesis) := by
  rw [entries_snapshot]
  obtain ⟨hch, hhead⟩ := isChain_written (P := P) (F := F)
    (auditLast P auditGenesis 0 (events.take (auditDropped events.length))) _ _
    (length_retained events hcnt)
  refine ⟨hch, fun e he => ?_⟩
  obtain ⟨hprev, hseq⟩ := hhead e he
  refine ⟨hseq, fun hone => ?_⟩
  have hzero : auditDropped events.length = 0 := by omega
  rw [hprev, hzero]
  rfl

/-- The last entry a chain kept. -/
theorem getLast?_snapshot (h : events ≠ []) :
    ∃ e, (auditRun P events).snapshot.entries.getLast? = some e ∧
      e.hash = auditLast P auditGenesis 0 events ∧ e.seq = wrap64 events.length := by
  have hlt := auditDropped_lt (length_pos_of_ne_nil h)
  have hlen : (auditLog P auditGenesis 0 events).length = events.length := length_auditLog ..
  have hget : (auditRun P events).snapshot.entries.getLast? =
      (auditLog P auditGenesis 0 events).getLast? := by
    rw [auditRun_eq]
    exact getLast?_drop.trans (if_neg (by omega))
  cases hlast : (auditLog P auditGenesis 0 events).getLast? with
  | none =>
    rw [getLast?_eq_none_iff.mp hlast] at hlen
    exact absurd (eq_nil_of_length_eq_zero hlen.symm) h
  | some e =>
    refine ⟨e, hget.trans hlast, ?_, ?_⟩
    · rw [auditLast_eq_getLast?, hlast]
      rfl
    · rw [seq_getLast_auditLog auditGenesis 0 events e hlast, Int.natCast_zero, Int.zero_add]

/-- The chain starts where the verifier computes it. -/
theorem auditFirstRetainedFor_total (hne : events ≠ []) (hcnt : events.length < 2 ^ 63) :
    ∃ first, (auditRun P events).snapshot.entries.head? = some first ∧
      auditFirstRetainedFor (auditRun P events).snapshot.total = first.seq ∧
      (first.seq = 1 → first.prev = auditGenesis) := by
  obtain ⟨last, hlast, -⟩ := getLast?_snapshot (P := P) hne
  cases hhead : (auditRun P events).snapshot.entries.head? with
  | none =>
    rw [head?_eq_none_iff.mp hhead] at hlast
    cases hlast
  | some first =>
    obtain ⟨hseq, hprev⟩ := (isChain_snapshot (P := P) (F := ⟨fun _ => []⟩) events hcnt).2 first hhead
    refine ⟨first, rfl, ?_, hprev⟩
    rw [total_snapshot, wrap64_eq_self (by omega) (by omega), auditFirstRetainedFor_eq, hseq]

/-- What the verifier reads in the document of a chain is what it walks. -/
theorem passes_auditFile_iff (hF : F.Correct) (hT : T.Correct)
    (hne : events ≠ []) (now : Int) (hcnt : events.length < 2 ^ 63) :
    (∃ ans, auditVerify P F T (auditFile F (auditRun P events).snapshot now)
        (some (auditRun P events).snapshot.head) = .ok ans ∧ ans.Passes) ↔
      ∀ e ∈ (auditRun P events).snapshot.entries, (e.written F).Holds P F := by
  have hread := read_snapshot (P := P) hF hT events hcnt
  have hlink := isLinkText_auditLast (P := P) isLinkText_auditGenesis 0 events
  obtain ⟨doc, hdoc, halg, hlog, hhead⟩ :=
    decodeMap_auditFile (F := F) (head_snapshot (P := P) events ▸ hlink) now
  rw [auditVerify_passes_iff, ← List.forall_mem_map]
  constructor
  · rintro ⟨doc', ents, rs, hdoc', -, hlog', -, hrs, hwalks, -⟩
    obtain rfl := some.inj (hdoc.symm.trans hdoc')
    obtain rfl := Json.array.inj (some.inj (hlog.symm.trans hlog'))
    -- the readings of the file are the entries that were written
    obtain rfl : _ = rs := (filterMap_read hread).symm.trans (filterMap_read hrs)
    exact hwalks.holds
  · intro hhold
    obtain ⟨last, hlast, hlasthash, hlastseq⟩ := getLast?_snapshot (P := P) hne
    obtain ⟨first, hfst, hfirstseq, hfirstprev⟩ := auditFirstRetainedFor_total (P := P) hne hcnt
    -- the front, the links, the head that was computed and the one that was noted
    refine ⟨doc, _, _, hdoc, halg, hlog, ?_, hread, ?_, ?_, ?_⟩
    · rw [auditFrontCheck_eq_none_iff hread, head?_map, getLast?_map, hfst, hlast]
      simp only [map_some, mem_some_iff, forall_eq']
      show first.seq = auditFirstRetainedFor last.seq
      rw [hlastseq, ← hfirstseq, total_snapshot]
    · rw [walks_iff _ (one_le_seq_of_forall₂ hread)]
      refine ⟨hhold, (isChain_snapshot events hcnt).1, ?_⟩
      rw [head?_map, hfst]
      simp only [map_some, mem_some_iff, forall_eq']
      exact hfirstprev
    · rw [head_snapshot, hlink.trimSpace hT, hlink.toLower hT, getLast?_map, hlast]
      exact congrArg some hlasthash
    · rw [hhead, head_snapshot, hlink.trimSpace hT]

/-- The document of a chain, checked against the chain's head, shows intact links, a matching head
and a matching anchor, and starts where the verifier computes it, exactly when there was an event
and a document can hold every one the chain kept. -/
theorem auditVerify_auditFile (hF : F.Correct) (hT : T.Correct) (events : List AuditEvent)
    (now : Int) (hcount : events.length < 2 ^ 63)
    (hfree : P.CollisionFree (WrittenMessage P events)) :
    ((∃ answer, auditVerify P F T (auditFile F (auditRun P events).snapshot now)
          (some (auditRun P events).snapshot.head) = .ok answer ∧ answer.Passes) ∧
        ∃ entry ∈ (auditRun P events).snapshot.entries.head?,
          auditFirstRetainedFor (auditRun P events).snapshot.total = entry.seq) ↔
      events ≠ [] ∧ ∀ e ∈ events.drop (auditDropped events.length), e.Sound := by
  -- The entries hold as they are read exactly where the document can hold their events.
  have hholds : (∀ e ∈ (auditRun P events).snapshot.entries, (e.written F).Holds P F) ↔
      ∀ e ∈ events.drop (auditDropped events.length), e.Sound := by
    rw [← forall_auditLog_iff (P := P) AuditEvent.Sound
      (auditLast P auditGenesis 0 (events.take (auditDropped events.length)))
      (auditDropped events.length), ← entries_snapshot]
    refine forall₂_congr fun e he => holds_written_iff hF hfree ?_ ⟨e, he, .inl rfl⟩ ⟨e, he, .inr rfl⟩
    rw [entries_snapshot] at he
    exact holds_auditLog _ _ _ e he
  rw [← hholds]
  constructor
  · rintro ⟨hpasses, entry, hentry, -⟩
    have hne : events ≠ [] := by
      rintro rfl
      cases hentry
    exact ⟨hne, (passes_auditFile_iff hF hT hne now hcount).mp hpasses⟩
  · rintro ⟨hne, hall⟩
    obtain ⟨first, hfirst, hseq, -⟩ := auditFirstRetainedFor_total (P := P) hne hcount
    exact ⟨(passes_auditFile_iff hF hT hne now hcount).mpr hall, first, hfirst, hseq⟩

/-- Times written as the number of their nanoseconds. -/
def countedTime : TimeFormat := ⟨Decimal.ofInt⟩

/-- A time printed as a number is printed in ASCII, and differently for each time. -/
theorem countedTime_correct : countedTime.Correct where
  ascii t b hb := by
    have hdig : ∀ d : Fin 10, (Decimal.digit d.val).toNat < 0x80 := by decide
    have hds (n : Nat) (hb : b ∈ Decimal.ofNat n) : b.toNat < 0x80 := by
      obtain ⟨d, hd, rfl⟩ := Decimal.isDigit_of_mem_ofNat hb
      exact hdig ⟨d, hd⟩
    cases t with
    | ofNat n => exact hds n hb
    | negSucc n =>
      rcases mem_cons.mp hb with rfl | hb
      · decide
      · exact hds (n + 1) hb
  injective _ _ h := Decimal.ofInt_inj h

/-- What the library does to ASCII without blanks. -/
def asciiText : TextOps := ⟨List.map Hex.lower, id⟩

theorem asciiText_correct : asciiText.Correct where
  toLower_ascii _ _ := rfl
  trimSpace_graphic _ _ := rfl

/-- A chain without events: its document has intact links, and neither its head nor the anchor
matches, since nothing was hashed. -/
theorem auditVerify_no_events :
    ∃ answer, auditVerify Security.copying countedTime asciiText
        (auditFile countedTime (auditRun Security.copying []).snapshot 0)
        (some (auditRun Security.copying []).snapshot.head) = .ok answer ∧
      answer.report.linksIntact = true ∧ answer.headMatches = false ∧
      answer.anchorMatches = false := by
  obtain ⟨document, hdocument, halgorithm, hlog, hhead⟩ :=
    decodeMap_auditFile (F := countedTime)
      (show IsLinkText (auditRun Security.copying []).snapshot.head from isLinkText_auditGenesis) 0
  simp only [auditVerify, hdocument, halgorithm, hlog]
  refine ⟨_, rfl, rfl, ?_, ?_⟩
  · rw [hhead]
    rfl
  · rfl

/-- The messages of a chain whose texts are UTF-8 are those of its entries, read or not. -/
theorem mem_of_writtenMessage {events : List AuditEvent}
    (hvalid : ∀ e ∈ (auditRun P events).snapshot.entries, valid e.event = true ∧ valid e.stage = true)
    {m : Bytes} (h : WrittenMessage P events m) :
    m ∈ (auditRun P events).snapshot.entries.map fun e =>
      auditMessage e.prev e.seq (unixNano e.at_) e.event e.stage := by
  obtain ⟨e, he, hm⟩ := h
  obtain ⟨hevent, hstage⟩ := hvalid e he
  rw [repair_of_valid hevent, repair_of_valid hstage] at hm
  exact mem_map.mpr ⟨e, he, (hm.elim id id).symm⟩

/-- A log of two events. -/
def twoEvents : List AuditEvent :=
  [⟨text "debugger", text "run", 7⟩, ⟨text "tracer", text "stop", 8⟩]

theorem twoEvents_valid : ∀ e ∈ (auditRun Security.copying twoEvents).snapshot.entries,
    valid e.event = true ∧ valid e.stage = true := by decide +kernel

/-- The two entries are hashed to different digests. -/
theorem twoEvents_collisionFree :
    ∀ a ∈ (auditRun Security.copying twoEvents).snapshot.entries.map fun e =>
        auditMessage e.prev e.seq (unixNano e.at_) e.event e.stage,
      ∀ b ∈ (auditRun Security.copying twoEvents).snapshot.entries.map fun e =>
          auditMessage e.prev e.seq (unixNano e.at_) e.event e.stage,
        Security.copying.sha256 a = Security.copying.sha256 b → a = b := by decide +kernel

theorem auditVerify_auditFile_twoEvents :
    (∃ answer, auditVerify Security.copying countedTime asciiText
        (auditFile countedTime (auditRun Security.copying twoEvents).snapshot 9)
        (some (auditRun Security.copying twoEvents).snapshot.head) = .ok answer ∧ answer.Passes) ∧
      ∃ entry ∈ (auditRun Security.copying twoEvents).snapshot.entries.head?,
        auditFirstRetainedFor (auditRun Security.copying twoEvents).snapshot.total = entry.seq := by
  refine (auditVerify_auditFile countedTime_correct asciiText_correct twoEvents 9 (by decide) ?_).mpr
    ⟨cons_ne_nil _ _, ?_⟩
  · exact fun a b ha hb => twoEvents_collisionFree a (mem_of_writtenMessage twoEvents_valid ha) b
      (mem_of_writtenMessage twoEvents_valid hb)
  · have hsound : ∀ e ∈ twoEvents, e.Sound :=
      forall_mem_cons.mpr ⟨⟨by decide, by decide, by decide⟩,
        forall_mem_singleton.mpr ⟨by decide, by decide, by decide⟩⟩
    exact fun e he => hsound e (mem_of_mem_drop he)

end Mutant.Builtin
