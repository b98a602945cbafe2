import Mutant.Builtin.Equiv.AuditVerify

/-!
# A log that passes is the chain's

A log that `audit_verify` passes against the head of a chain holds exactly what the chain kept
(`auditVerify_sound`).  From the head backwards the links decide every entry, and the numbers decide
where the log starts.
-/

namespace Mutant.Builtin

open List
open Mutant.Security (Bytes Primitives text)

variable {last first : AuditReading}

variable {P : Primitives} {F : TimeFormat} {T : TextOps}

/-- Two entries with one hash are one entry, as long as no two messages collide. -/
theorem AuditReading.Holds.eq_of_hash {messages : Bytes → Prop} (hfree : P.CollisionFree messages)
    {a b : AuditReading} (ha : a.Holds P F) (hb : b.Holds P F) (hmem : messages a.message)
    (hmem' : messages b.message) (h : a.hash = b.hash) : a = b := by
  have hdigest : P.sha256 a.message = P.sha256 b.message := by
    rw [← ha.link, ← hb.link] at h
    exact Vector.toList_inj.mp (Hex.encode_inj h)
  obtain ⟨hprev, hseq, hnano, hev, hstage⟩ := auditMessage_inj (hfree _ _ hmem hmem' hdigest)
  have htime : a.rendered = b.rendered := by rw [ha.time, hb.time, hnano]
  cases a
  cases b
  simp_all only

/-- A log is linked, from the hash it starts at. -/
theorem linked_auditLog (prev : Bytes) (n : Nat) (events : List AuditEvent) :
    HashChain.Linked AuditEntry.prev AuditEntry.hash (auditLog P prev n events) ∧
      ∀ e ∈ (auditLog P prev n events).head?, e.prev = prev := by
  induction events generalizing prev n with
  | nil => exact ⟨.nil, by simp [auditLog]⟩
  | cons e events ih =>
    refine ⟨?_, by simp [auditLog]⟩
    obtain ⟨hlinked, hhead⟩ := ih (auditLink P prev (wrap64 (n + 1)) (unixNano e.at_) e.event e.stage)
      (n + 1)
    rw [auditLog, HashChain.Linked, isChain_cons]
    exact ⟨fun e' he' => hhead e' he', hlinked⟩

/-- The window of a log that ends in the number of `n` is the chain's, unless the number has come
back to the first ones. -/
theorem auditDropped_wrap {n l : Nat} (hl : (l : Int) = wrap64 n) (hlt : 4096 < l ∨ l = n) :
    n - auditDropped n = l - auditDropped l := by
  obtain ⟨-, hhigh, k, hk⟩ := wrap64_spec n
  have hn := auditDropped_eq n
  have hl' := auditDropped_eq l
  split_ifs at hn hl' <;> omega

/-- The entries a document holds, as far as they are read. -/
def documentReadings (T : TextOps) (raw : Bytes) : List AuditReading :=
  match (Json.decodeMap raw).bind (Json.member? (text "log")) with
  | some (.array entries) => entries.filterMap (readAuditEntry T)
  | _ => []

/-- What is hashed for the links of a chain and of a document. -/
def LinkMessage (P : Primitives) (T : TextOps) (events : List AuditEvent) (raw message : Bytes) :
    Prop :=
  (∃ e ∈ auditLog P auditGenesis 0 events,
      message = auditMessage e.prev e.seq (unixNano e.at_) e.event e.stage) ∨
    ∃ r ∈ documentReadings T raw, message = r.message

/-- The document of what a chain kept reads as that. -/
theorem documentReadings_auditFile (hF : F.Correct) (hT : T.Correct) (events : List AuditEvent)
    (now : Int) (hcnt : events.length < 2 ^ 63) :
    documentReadings T (auditFile F (auditRun P events).snapshot now) =
      (auditRun P events).snapshot.entries.map (AuditEntry.written F) := by
  have hlink := isLinkText_auditLast (P := P) isLinkText_auditGenesis 0 events
  obtain ⟨doc, hdoc, -, hlog, -⟩ :=
    decodeMap_auditFile (F := F) (head_snapshot (P := P) events ▸ hlink) now
  rw [documentReadings, hdoc, Option.bind_some, hlog]
  exact filterMap_read (read_snapshot hF hT events hcnt)

/-- What is known of the readings of a log that passed against the head of a chain. -/
structure PassedLog (P : Primitives) (F : TimeFormat) (messages : Bytes → Prop)
    (events : List AuditEvent) (rs : List AuditReading) : Prop where
  free : P.CollisionFree messages
  genesis : events = [] ∨ 2 ^ 63 ≤ events.length →
    ∀ m, messages m → Hex.encode (P.sha256 m).toList ≠ auditGenesis
  log : ∀ e ∈ auditLog P auditGenesis 0 events, messages (e.reading F).message
  read : ∀ r ∈ rs, messages r.message
  seq : ∀ r ∈ rs, 1 ≤ r.seq
  walks : Walks P F {} rs
  front : ∀ first ∈ rs.head?, ∀ last ∈ rs.getLast?, first.seq = auditFirstRetainedFor last.seq
  last : rs.getLast?.map (·.hash) = some (auditLast P auditGenesis 0 events)

/-- The readings of everything a chain recorded. -/
def logReadings (P : Primitives) (F : TimeFormat) (events : List AuditEvent) : List AuditReading :=
  (auditLog P auditGenesis 0 events).map (AuditEntry.reading F)

theorem length_logReadings (events : List AuditEvent) :
    (logReadings P F events).length = events.length := by
  rw [logReadings, length_map, length_auditLog]

theorem holds_logReadings (events : List AuditEvent) :
    ∀ r ∈ logReadings P F events, r.Holds P F := by
  intro r hr
  obtain ⟨e, he, rfl⟩ := mem_map.mp hr
  exact holds_auditLog _ _ _ e he

theorem linked_logReadings (events : List AuditEvent) :
    HashChain.Linked AuditReading.prev AuditReading.hash (logReadings P F events) := by
  rw [logReadings, HashChain.Linked, isChain_map]
  exact (linked_auditLog auditGenesis 0 events).1

namespace PassedLog

variable {messages : Bytes → Prop} {events : List AuditEvent} {rs : List AuditReading}

section

variable (h : PassedLog P F messages events rs)

include h

theorem message_log : ∀ r ∈ logReadings P F events, messages r.message := by
  intro r hr
  obtain ⟨e, he, rfl⟩ := mem_map.mp hr
  exact h.log e he

/-- The zeros are no entry's hash, where that matters. -/
theorem hash_ne_genesis (hevents : events = [] ∨ 2 ^ 63 ≤ events.length) {r : AuditReading}
    (hr : r.Holds P F) (hmsg : messages r.message) : r.hash ≠ auditGenesis := by
  rw [← hr.link]
  exact h.genesis hevents _ hmsg

/-- The last entries have one hash, so they are one entry. -/
theorem getLast?_log
    (hlast : rs.getLast? = some last) : (logReadings P F events).getLast? = some last := by
  have hmem : last ∈ rs := mem_of_getLast? hlast
  have hhash : last.hash = auditLast P auditGenesis 0 events := by
    have := h.last
    rw [hlast] at this
    exact Option.some.inj this
  have heq := auditLast_eq_getLast? (P := P) auditGenesis 0 events
  cases hget : (auditLog P auditGenesis 0 events).getLast? with
  | none =>
    -- nothing was recorded, and the head is the zeros
    have hempty : events = [] := by
      have hlength := length_auditLog (P := P) auditGenesis 0 events
      rw [getLast?_eq_none_iff.mp hget] at hlength
      exact length_eq_zero_iff.mp hlength.symm
    rw [hget] at heq
    exact absurd (hhash.trans heq)
      (h.hash_ne_genesis (.inl hempty) (h.walks.holds last hmem) (h.read last hmem))
  | some e =>
    have hloglast : (logReadings P F events).getLast? = some (e.reading F) := by
      rw [logReadings, getLast?_map, hget]
      rfl
    have he : e.reading F ∈ logReadings P F events := mem_of_getLast? hloglast
    rw [hget] at heq
    rw [hloglast, (holds_logReadings _ _ he).eq_of_hash h.free (h.walks.holds last hmem)
      (h.message_log _ he) (h.read last hmem) (heq.symm.trans hhash.symm)]

theorem seq_last (hlast : rs.getLast? = some last) : last.seq = wrap64 events.length := by
  have hlog := h.getLast?_log hlast
  rw [logReadings, getLast?_map] at hlog
  obtain ⟨e, he, rfl⟩ := Option.map_eq_some_iff.mp hlog
  have := seq_getLast_auditLog auditGenesis 0 events e he
  rwa [Int.natCast_zero, Int.zero_add] at this

/-- One of the two lists is the end of the other. -/
theorem rest_or_rest (hlast : rs.getLast? = some last) :
    rs <:+ logReadings P F events ∨ logReadings P F events <:+ rs := by
  have hch := ((walks_iff rs h.seq).mp h.walks).2.1
  refine HashChain.rest_or_rest (hch.imp fun _ _ hnext => hnext.1) (linked_logReadings events)
    ?_ ?_
  · intro a ha b hb
    exact (h.walks.holds a ha).eq_of_hash h.free (holds_logReadings events b hb) (h.read a ha)
      (h.message_log b hb)
  · rw [hlast, h.getLast?_log hlast]

/-- The numbers say how many entries were read, and where they start. -/
theorem window {l : Nat}
    (hfst : rs.head? = some first) (hlast : rs.getLast? = some last) (hl : last.seq = l) :
    first.seq = auditDropped l + 1 ∧ rs.length = l - auditDropped l := by
  have hseq : first.seq = auditDropped l + 1 := by
    rw [h.front first hfst last hlast, hl, auditFirstRetainedFor_eq]
  have hcnt := seq_getLast ((walks_iff rs h.seq).mp h.walks).2.1 hfst hlast
  exact ⟨hseq, by omega⟩

/-- Where the counter came round, a first entry that claims the zeros is still the first of all. -/
theorem not_proper_suffix (hlong : 2 ^ 63 ≤ events.length)
    (hfst : rs.head? = some first) (hone : first.seq = 1) {front : List AuditReading}
    (hfr : front ++ rs = logReadings P F events) : front = [] := by
  by_contra hne
  obtain ⟨pre, hbef⟩ := Option.isSome_iff_exists.mp (getLast?_isSome.mpr hne)
  have hlinked := linked_logReadings (P := P) (F := F) events
  rw [← hfr] at hlinked
  have hprev : first.prev = pre.hash :=
    (HashChain.linked_append.mp hlinked).2.2 pre hbef first hfst
  have hzeros : first.prev = auditGenesis :=
    ((walks_iff rs h.seq).mp h.walks).2.2 first hfst hone
  have hmem : pre ∈ logReadings P F events := by
    rw [← hfr]
    exact mem_append_left _ (mem_of_getLast? hbef)
  exact h.hash_ne_genesis (.inr hlong) (holds_logReadings events pre hmem) (h.message_log pre hmem)
    (hprev.symm.trans hzeros)

/-- The readings are the ones of what the chain kept. -/
theorem readings_eq : rs = (logReadings P F events).drop (auditDropped events.length) := by
  obtain ⟨last, hlast, -⟩ := Option.map_eq_some_iff.mp h.last
  have hmem : last ∈ rs := mem_of_getLast? hlast
  obtain ⟨l, hl⟩ := Int.eq_ofNat_of_zero_le (Int.le_trans (by decide) (h.seq last hmem))
  obtain ⟨first, hfst⟩ : ∃ first, rs.head? = some first := by
    cases rs with
    | nil => cases hmem
    | cons r rs => exact ⟨r, rfl⟩
  obtain ⟨hseqfirst, hcnt⟩ := h.window hfst hlast hl
  have hseqlast : (l : Int) = wrap64 events.length := hl.symm.trans (h.seq_last hlast)
  have hlength := length_logReadings (P := P) (F := F) events
  by_cases hwindow : 4096 < l ∨ l = events.length
  · have hwrap := auditDropped_wrap hseqlast hwindow
    have hle := auditDropped_le events.length
    have hdrop : rs = (logReadings P F events).drop ((logReadings P F events).length - rs.length) := by
      rcases h.rest_or_rest hlast with hsuffix | hsuffix
      · exact suffix_iff_eq_drop.mp hsuffix
      · have hlen := hsuffix.length_le
        rw [← hsuffix.eq_of_length (by omega), Nat.sub_self, drop_zero]
    rwa [hlength, hcnt, ← hwrap, Nat.sub_sub_self hle] at hdrop
  · -- The counter has come round: the log would be a proper end of the chain's, numbered from one.
    rw [not_or, Nat.not_lt] at hwindow
    obtain ⟨-, hhigh, k, hk⟩ := wrap64_spec events.length
    have hdr : auditDropped l = 0 := if_pos hwindow.1
    rcases h.rest_or_rest hlast with ⟨front, hfr⟩ | hsuffix
    · obtain rfl := h.not_proper_suffix (by omega) hfst (by omega) hfr
      have := congrArg length hfr
      rw [nil_append] at this
      omega
    · have hlen := hsuffix.length_le
      omega

end

end PassedLog

/-- A log that passes against the head of a chain holds exactly what the chain kept: the entries as
they are read, with their numbers, times, events, stages and links.

The hash is ideal on what is hashed for the two: it has no collision there, and for a chain without
events, or one so long that its counter came round, none of these messages has the zeros the first
entry names. -/
theorem auditVerify_sound (hT : T.Correct) (events : List AuditEvent) (raw : Bytes)
    (hfree : P.CollisionFree (LinkMessage P T events raw))
    (hgenesis : events = [] ∨ 2 ^ 63 ≤ events.length →
      ∀ m, LinkMessage P T events raw m → Hex.encode (P.sha256 m).toList ≠ auditGenesis)
    (h : ∃ answer, auditVerify P F T raw (some (auditRun P events).snapshot.head) = .ok answer ∧
      answer.Passes) :
    ∃ document entries, Json.decodeMap raw = some document ∧
      Json.member? (text "log") document = some (.array entries) ∧
      List.Forall₂ (fun entry e => readAuditEntry T entry = some (e.reading F)) entries
        (auditRun P events).snapshot.entries := by
  obtain ⟨document, entries, rs, hdocument, -, hlog, hfront, hreadings, hwalks, hlast, -⟩ :=
    (auditVerify_passes_iff raw _).mp h
  have hlink := isLinkText_auditLast (P := P) isLinkText_auditGenesis 0 events
  rw [head_snapshot, hlink.trimSpace hT, hlink.toLower hT] at hlast
  have hdocreadings : documentReadings T raw = rs := by
    rw [documentReadings, hdocument, Option.bind_some, hlog]
    exact filterMap_read hreadings
  -- all that is known of a log that passed
  have hpassed : PassedLog P F (LinkMessage P T events raw) events rs :=
    { free := hfree
      genesis := hgenesis
      log := fun e he => .inl ⟨e, he, rfl⟩
      read := fun r hr => .inr ⟨r, hdocreadings ▸ hr, rfl⟩
      seq := one_le_seq_of_forall₂ hreadings
      walks := hwalks
      front := (auditFrontCheck_eq_none_iff hreadings).mp hfront
      last := hlast }
  refine ⟨document, entries, hdocument, hlog, ?_⟩
  rw [auditRun_eq]
  rw [hpassed.readings_eq, logReadings, ← map_drop, ReadAs, forall₂_map_right_iff] at hreadings
  exact hreadings

theorem holds_twoEvents : ∀ e ∈ (auditRun Security.copying twoEvents).snapshot.entries,
    (e.written countedTime).Holds Security.copying countedTime := by
  intro e he
  rcases mem_cons.mp he with rfl | he
  · exact ⟨rfl, by decide⟩
  · obtain rfl := mem_singleton.mp he
    exact ⟨rfl, by decide⟩

/-- The messages of a log and of its own file are the log's messages. -/
theorem mem_of_linkMessage {m : Bytes} (h : LinkMessage Security.copying asciiText twoEvents
      (auditFile countedTime (auditRun Security.copying twoEvents).snapshot 9) m) :
    m ∈ (auditRun Security.copying twoEvents).snapshot.entries.map fun e =>
      auditMessage e.prev e.seq (unixNano e.at_) e.event e.stage := by
  refine mem_of_writtenMessage twoEvents_valid ?_
  rcases h with ⟨e, he, rfl⟩ | ⟨r, hr, rfl⟩
  · exact ⟨e, he, .inl rfl⟩
  · rw [documentReadings_auditFile countedTime_correct asciiText_correct _ _ (by decide)] at hr
    obtain ⟨e, he, rfl⟩ := mem_map.mp hr
    exact ⟨e, he, .inr rfl⟩

theorem auditVerify_sound_twoEvents :
    ∃ document entries,
      Json.decodeMap (auditFile countedTime (auditRun Security.copying twoEvents).snapshot 9) =
        some document ∧
      Json.member? (text "log") document = some (.array entries) ∧
      List.Forall₂ (fun entry e => readAuditEntry asciiText entry = some (e.reading countedTime))
        entries (auditRun Security.copying twoEvents).snapshot.entries := by
  refine auditVerify_sound asciiText_correct twoEvents _ ?_ ?_
    ((passes_auditFile_iff countedTime_correct asciiText_correct (cons_ne_nil _ _) 9
      (by decide)).mpr holds_twoEvents)
  · exact fun a b ha hb =>
      twoEvents_collisionFree a (mem_of_linkMessage ha) b (mem_of_linkMessage hb)
  · rintro (hnil | hlong)
    · cases hnil
    · exact absurd hlong (by decide)

end Mutant.Builtin
