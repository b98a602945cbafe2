import Mutant.Lib.Json.Decode
import Mutant.Lib.Wrap64
import Mutant.Security.Primitives

/-!
# The audit log

A hash chain of the security events of a run.  The chain keeps its newest entries and the hash of
the last one, `audit_write` writes them as a document, and `audit_verify` walks a document again.

Times are instants, in nanoseconds; how one is written (`TimeFormat`) and how a string is lowered
and trimmed (`TextOps`) are the library's.
-/

namespace Mutant.Builtin

open Mutant.Security (Bytes Primitives text)

/-! ### What the library does -/

/-- `Format(time.RFC3339Nano)` of an instant in UTC. -/
structure TimeFormat where
  format : Int → Bytes

/-- The format tells instants apart, in ASCII. -/
structure TimeFormat.Correct (F : TimeFormat) : Prop where
  ascii : ∀ t, ∀ b ∈ F.format t, b.toNat < 0x80
  injective : ∀ s t, F.format s = F.format t → s = t

/-- `strings.ToLower` and `strings.TrimSpace`. -/
structure TextOps where
  toLower : Bytes → Bytes
  trimSpace : Bytes → Bytes

/-- What they do to a string of ASCII without blanks. -/
structure TextOps.Correct (T : TextOps) : Prop where
  toLower_ascii : ∀ s, (∀ b ∈ s, b.toNat < 0x80) → T.toLower s = s.map Hex.lower
  trimSpace_graphic : ∀ s, (∀ b ∈ s, 0x20 < b.toNat ∧ b.toNat < 0x7F) → T.trimSpace s = s

/-- `UnixNano`. -/
def unixNano (at_ : Int) : Int := wrap64 at_

/-! ### The chain -/

def auditChainVersion : Bytes := text "mutant-audit-1"

/-- Sixty-four zeros. -/
def auditGenesis : Bytes := List.replicate 64 0x30

/-- How many entries the chain keeps. -/
def auditRetained : Nat := 4096

structure AuditEntry where
  seq : Int
  at_ : Int
  event : Bytes
  stage : Bytes
  prev : Bytes
  hash : Bytes
deriving DecidableEq, Repr

structure AuditChain where
  head : Bytes := []
  total : Int := 0
  dropped : Int := 0
  entries : List AuditEntry := []
deriving DecidableEq, Repr

/-- A field of a link: its length, a colon and the field. -/
def auditField (s : Bytes) : Bytes := Decimal.ofNat s.length ++ 0x3A :: s

/-- What a link is the hash of. -/
def auditMessage (prev : Bytes) (seq unixNano : Int) (event stage : Bytes) : Bytes :=
  [auditChainVersion, prev, Decimal.ofInt seq, Decimal.ofInt unixNano, event, stage].flatMap auditField

/-- `auditLink`. -/
def auditLink (P : Primitives) (prev : Bytes) (seq unixNano : Int) (event stage : Bytes) : Bytes :=
  Hex.encode (P.sha256 (auditMessage prev seq unixNano event stage)).toList

/-- What was recorded: an event, its stage and the time. -/
structure AuditEvent where
  event : Bytes
  stage : Bytes
  at_ : Int
deriving DecidableEq, Repr

/-- The entry `appendEntry` makes. -/
def AuditChain.nextEntry (P : Primitives) (c : AuditChain) (e : AuditEvent) : AuditEntry :=
  let prev := if c.head = [] then auditGenesis else c.head
  let seq := wrap64 (c.total + 1)
  { seq := seq
    at_ := e.at_
    event := e.event
    stage := e.stage
    prev := prev
    hash := auditLink P prev seq (unixNano e.at_) e.event e.stage }

/-- `appendEntry`: once the cap is reached, a quarter of it is dropped. -/
def AuditChain.appendEntry (P : Primitives) (c : AuditChain) (e : AuditEvent) : AuditChain :=
  let entry := c.nextEntry P e
  let drop := auditRetained / 4
  if auditRetained ≤ c.entries.length then
    { head := entry.hash
      total := entry.seq
      dropped := wrap64 (c.dropped + drop)
      entries := c.entries.drop drop ++ [entry] }
  else
    { head := entry.hash
      total := entry.seq
      dropped := c.dropped
      entries := c.entries ++ [entry] }

/-- The chain after some events. -/
def auditRun (P : Primitives) (events : List AuditEvent) : AuditChain :=
  events.foldl (AuditChain.appendEntry P) {}

/-- `auditSnapshot`. -/
structure AuditSnapshot where
  head : Bytes
  total : Int
  dropped : Int
  entries : List AuditEntry
deriving DecidableEq, Repr

/-- `snapshot`. -/
def AuditChain.snapshot (c : AuditChain) : AuditSnapshot :=
  { head := if c.head = [] then auditGenesis else c.head
    total := c.total
    dropped := c.dropped
    entries := c.entries }

/-- `complete`. -/
def AuditSnapshot.complete (s : AuditSnapshot) : Bool := s.dropped = 0

/-- `firstRetainedSeq`. -/
def AuditSnapshot.firstRetainedSeq (s : AuditSnapshot) : Int :=
  match s.entries with
  | [] => 0
  | entry :: _ => entry.seq

/-! ### The document -/

def auditDoesNotCover : Bytes := text <|
  "a log that was deleted or truncated as a whole. Editing an entry breaks the " ++
  "link to every entry after it, so this document can show that an entry changed; no document can show " ++
  "that a document is missing. That needs the head from somewhere its writer did not control -- the seal " ++
  "of the case manifest written beside it, or an external anchor."

/-- An integer in a document. -/
def jsonInt (i : Int) : Json := .number (Decimal.ofInt i)

/-- An entry in the document; a map is written in the order of its keys. -/
def auditEntryDocument (F : TimeFormat) (entry : AuditEntry) : Json :=
  .object
    [(text "at", .string (F.format entry.at_)),
     (text "event", .string entry.event),
     (text "hash", .string entry.hash),
     (text "prev", .string entry.prev),
     (text "seq", jsonInt entry.seq),
     (text "stage", .string entry.stage),
     (text "unix_nano", jsonInt (unixNano entry.at_))]

/-- `auditDocument`, written at `now`. -/
def auditDocument (F : TimeFormat) (snapshot : AuditSnapshot) (now : Int) : Json :=
  .object
    [(text "algorithm", .string auditChainVersion),
     (text "chain_complete", .bool snapshot.complete),
     (text "does_not_cover", .string auditDoesNotCover),
     (text "dropped", jsonInt snapshot.dropped),
     (text "entries", jsonInt snapshot.total),
     (text "first_retained_seq", jsonInt snapshot.firstRetainedSeq),
     (text "genesis", .string auditGenesis),
     (text "head", .string snapshot.head),
     (text "log", .array (snapshot.entries.map (auditEntryDocument F))),
     (text "retained", jsonInt snapshot.entries.length),
     (text "written_at", .string (F.format now))]

/-- The bytes `audit_write` writes. -/
def auditFile (F : TimeFormat) (snapshot : AuditSnapshot) (now : Int) : Bytes :=
  (auditDocument F snapshot now).render Json.indented 0 ++ [0x0A]

/-! ### Reading a document -/

/-- `stringField`. -/
def stringField (members : List (Bytes × Json)) (key : Bytes) : Bytes :=
  match Json.member? key members with
  | some (.string value) => value
  | _ => []

/-- `json.Number.Int64`. -/
def int64? (literal : Bytes) : Option Int :=
  (Decimal.toInt? literal).filter fun i => -2 ^ 63 ≤ i ∧ i < 2 ^ 63

/-- `manifestInt` of a document read back: a number that is no `int64` counts as zero. -/
def manifestInt (members : List (Bytes × Json)) (key : Bytes) : Int :=
  match Json.member? key members with
  | some (.number literal) => (int64? literal).getD 0
  | _ => 0

/-- `auditEntrySeq`. -/
def auditEntrySeq : Json → Option Int
  | .object members =>
    match Json.member? (text "seq") members with
    | some (.number literal) => (int64? literal).filter fun seq => 1 ≤ seq
    | _ => none
  | _ => none

/-- `auditFirstRetainedFor`. -/
def auditFirstRetainedFor (total : Int) : Int :=
  if total ≤ auditRetained then 1
  else
    let quarter : Int := (auditRetained / 4 : Nat)
    let drops := (total - auditRetained + quarter - 1) / quarter
    drops * quarter + 1

/-- Why a walk breaks: what its `detail` says. -/
inductive AuditBreak
  | missingFront (first last want : Int)
  | notObject (position : Nat)
  | noSeq (position : Nat)
  | notConsecutive (seq before : Int)
  | notGenesis (prev : Bytes)
  | notLinked (seq : Int) (prev previous : Bytes)
  | notHash (seq : Int) (recomputed hash : Bytes)
  | notTime (seq : Int) (rendered sealed : Bytes)
deriving DecidableEq, Repr

/-- What the walk carries from entry to entry. -/
structure AuditWalk where
  previous : Bytes := []
  computed : Bytes := []
  checked : Int := 0
  firstSeq : Int := 0
  lastSeq : Int := 0
  expectedSeq : Int := 0
deriving DecidableEq, Repr

/-- One turn of the walk: the entry at an index, and where it breaks, with the position's `seq`. -/
def auditStep (P : Primitives) (F : TimeFormat) (T : TextOps) (w : AuditWalk) (index : Nat)
    (raw : Json) : Except (Int × AuditBreak) AuditWalk :=
  match raw with
  | .object entry =>
    match auditEntrySeq raw with
    | none => .error (0, .noSeq (index + 1))
    | some seq =>
      if w.expectedSeq ≠ 0 ∧ seq ≠ w.expectedSeq then
        .error (seq, .notConsecutive seq (w.expectedSeq - 1))
      else
        let nano := manifestInt entry (text "unix_nano")
        let prev := T.toLower (stringField entry (text "prev"))
        let hash := T.toLower (stringField entry (text "hash"))
        if w.previous = [] ∧ seq = 1 ∧ prev ≠ auditGenesis then .error (seq, .notGenesis prev)
        else if w.previous ≠ [] ∧ prev ≠ w.previous then
          .error (seq, .notLinked seq prev w.previous)
        else
          let recomputed := auditLink P prev seq nano (stringField entry (text "event"))
            (stringField entry (text "stage"))
          if recomputed ≠ hash then .error (seq, .notHash seq recomputed hash)
          else
            -- `time.Unix(0, nano)` is the instant of that many nanoseconds.
            let rendered := stringField entry (text "at")
            if rendered ≠ F.format nano then .error (seq, .notTime seq rendered (F.format nano))
            else
              .ok
                { previous := hash
                  computed := hash
                  checked := w.checked + 1
                  firstSeq := if w.firstSeq = 0 then seq else w.firstSeq
                  lastSeq := seq
                  expectedSeq := seq + 1 }
  | _ => .error (0, .notObject (index + 1))

/-- The loop of the walk: what it carries at the end, and where it broke. -/
def auditLoop (P : Primitives) (F : TimeFormat) (T : TextOps) :
    AuditWalk → Nat → List Json → AuditWalk × Option (Nat × Int × AuditBreak)
  | w, _, [] => (w, none)
  | w, index, raw :: rest =>
    match auditStep P F T w index raw with
    | .ok w => auditLoop P F T w (index + 1) rest
    | .error (seq, why) => (w, some (index + 1, seq, why))

/-- The check of where the log starts, before the loop. -/
def auditFrontCheck (entries : List Json) : Option (Int × AuditBreak) :=
  match entries.head?.bind auditEntrySeq, entries.getLast?.bind auditEntrySeq with
  | some first, some last =>
    let want := auditFirstRetainedFor last
    if first ≠ want then some (first, .missingFront first last want) else none
  | _, _ => none

/-- What `auditWalk` reports. -/
structure AuditReport where
  linksChecked : Int
  computedHead : Bytes
  linksIntact : Bool
  brokenAt : Int
  brokenIndex : Nat
  entries : Int
  dropped : Int
  chainComplete : Bool
  /-- Where it broke; an intact log says how many links were recomputed, or that there are none. -/
  detail : Option AuditBreak
deriving DecidableEq, Repr

/-- `auditWalk`. -/
def auditWalk (P : Primitives) (F : TimeFormat) (T : TextOps) (entries : List Json) : AuditReport :=
  let (w, broken) :=
    match auditFrontCheck entries with
    | some (seq, why) => (({} : AuditWalk), some (1, seq, why))
    | none => auditLoop P F T {} 0 entries
  let dropped := if 0 < w.firstSeq then w.firstSeq - 1 else 0
  { linksChecked := w.checked
    computedHead := w.computed
    linksIntact := broken.isNone
    brokenAt := (broken.map fun b => b.2.1).getD 0
    brokenIndex := (broken.map fun b => b.1).getD 0
    entries := w.lastSeq
    dropped := dropped
    chainComplete := broken.isNone && dropped = 0
    detail := broken.map fun b => b.2.2 }

/-- Why a file is refused. -/
inductive AuditError
  /-- It is no JSON object, or something follows it. -/
  | notAuditLog
  | otherVersion (algorithm : Bytes)
  | noLog
deriving DecidableEq, Repr

/-- What `audit_verify` answers. -/
structure AuditAnswer where
  report : AuditReport
  head : Bytes
  headMatches : Bool
  anchored : Bool
  anchorMatches : Bool
deriving DecidableEq, Repr

/-- `AuditVerify` of a file's content, against a head where one is given. -/
def auditVerify (P : Primitives) (F : TimeFormat) (T : TextOps) (raw : Bytes)
    (head : Option Bytes) : Except AuditError AuditAnswer :=
  let expected := (head.map fun head => T.toLower (T.trimSpace head)).getD []
  match Json.decodeMap raw with
  | none => .error .notAuditLog
  | some document =>
    let algorithm := stringField document (text "algorithm")
    if algorithm ≠ auditChainVersion then .error (.otherVersion algorithm)
    else
      match Json.member? (text "log") document with
      | some (.array entries) =>
        let recorded := T.toLower (stringField document (text "head"))
        let report := auditWalk P F T entries
        .ok
          { report := report
            head := recorded
            headMatches := recorded ≠ [] && recorded = report.computedHead
            anchored := expected ≠ []
            anchorMatches := expected ≠ [] && expected = report.computedHead }
      | _ => .error .noLog

end Mutant.Builtin
