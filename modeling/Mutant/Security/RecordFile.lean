import Mutant.Security.JsonKeys
import Mutant.Security.RecordKeys

/-!
# The record file

A model of `security/record_file.go`: the header of a record and the segments it describes, the
footer and its signature, and what is refused when they are read.  Header and footer are JSON, with
the fields and the names that the tags of the source give them.
-/

namespace Mutant.Security

/-! ### Data -/

/-- A range of the plaintext and its class. -/
structure RecordSpan where
  offset : UInt64
  length : UInt64
  cls : Bytes
deriving DecidableEq

structure RecordHeader where
  format : Bytes
  version : UInt32
  recordUID : Bytes
  caseUID : Bytes
  caseKeyID : Bytes
  sealedUnderGeneration : UInt32
  wrappedUnderGeneration : UInt32
  recordKeyNonce : Bytes
  recordKeyWrapped : Bytes
  sealSalt : Bytes
  plaintextLength : UInt64
  segmentSize : UInt32
  quantum : UInt32
  quantisedExtra : UInt64
  roundsTo : Bytes
  created : Bytes
  examiner : Bytes
  source : Bytes
  spans : List RecordSpan
deriving DecidableEq

structure RecordSealedBlock where
  nonce : Bytes
  blob : Bytes
deriving DecidableEq

structure RecordFooter where
  sealedMeta : RecordSealedBlock
  segmentsRoot : Bytes
  signed : Bool
  signatureReason : Bytes
  publicKey : Bytes
  signature : Bytes
  keyCreatedForThisRun : Bool
deriving DecidableEq

/-- One stored piece of the plaintext. -/
structure RecordSegment where
  index : UInt64
  offset : UInt64
  length : UInt32
  classTag : ClassTag
  storedOffset : UInt64
  storedLength : UInt64
deriving DecidableEq

def maxRecordSpans : Nat := 4096
def maxRecordSegments : UInt64 := UInt64.ofNat (2 ^ 20)
def maxRecordHeader : Nat := 2 ^ 23

/-- Why a record file is refused. -/
inductive FileError
  | headerJson
  | footerJson
  | format (format : Bytes)
  | version (version : UInt32)
  | caseUID
  | recordUID
  | sealSalt
  | generations (sealedUnder wrappedUnder : UInt32)
  | roundsTo
  | roundingWithoutQuantum
  | quantumWithoutClass (quantum : UInt32)
  | roundingTooLarge (extra plaintextLength : UInt64)
  | segmentSize (size : UInt32)
  | noSpans
  | tooManySpans (count : Nat)
  | spanOffset (i : Nat) (offset ended : UInt64)
  | spanEmpty (i : Nat)
  | spanClass (i : Nat)
  | spanPastEnd (i : Nat) (stop plaintextLength : UInt64)
  | tooManySegments (count : UInt64)
  | spansShort (covered plaintextLength : UInt64)
  | segmentsRoot
deriving DecidableEq

/-! ### Hexadecimal fields -/

/-- `hexOfLength`: a field of `n` bytes. -/
def hexOfLength (s : Bytes) (n : Nat) : Option (Vector UInt8 n) :=
  match Hex.decode s with
  | none => none
  | some bytes =>
    if h : bytes.length = n then some ⟨bytes.toArray, by rw [List.size_toArray, h]⟩ else none

/-- `classTagFromHex`. -/
def classTagFromHex (s : Bytes) : Option ClassTag := hexOfLength s digestSize

/-- `caseUIDFromHex`. -/
def caseUIDFromHex (s : Bytes) : Option CaseUID := hexOfLength s caseUIDSize

/-- `recordUIDFromHex`. -/
def recordUIDFromHex (s : Bytes) : Option RecordUID := hexOfLength s recordUIDSize

namespace RecordHeader

/-! ### Segments -/

/-- The loop of `SegmentCount`, from span `i` on: the spans before it end at `nextOffset` and make
`count` segments. -/
def countFrom (h : RecordHeader) : (i : Nat) → (nextOffset count : UInt64) → List RecordSpan →
    Except FileError (UInt64 × UInt64)
  | _, nextOffset, count, [] => .ok (nextOffset, count)
  | i, nextOffset, count, span :: spans =>
    if span.offset ≠ nextOffset then .error (.spanOffset i span.offset nextOffset)
    else if span.length = 0 then .error (.spanEmpty i)
    else
      match classTagFromHex span.cls with
      | none => .error (.spanClass i)
      | some _ =>
        let stop := span.offset + span.length
        if stop < span.offset ∨ h.plaintextLength < stop then
          .error (.spanPastEnd i stop h.plaintextLength)
        else
          let size := h.segmentSize.toUInt64
          let n := span.length / size
          let n := if span.length % size ≠ 0 then n + 1 else n
          let count := count + n
          if maxRecordSegments < count then .error (.tooManySegments count)
          else countFrom h (i + 1) stop count spans

/-- `RecordHeader.SegmentCount`. -/
def segmentCount (h : RecordHeader) : Except FileError UInt64 :=
  if h.segmentSize = 0 ∨ maxSegmentPlaintext < h.segmentSize.toNat then
    .error (.segmentSize h.segmentSize)
  else if h.spans.isEmpty then .error .noSpans
  else if maxRecordSpans < h.spans.length then .error (.tooManySpans h.spans.length)
  else
    match h.countFrom 0 0 0 h.spans with
    | .error e => .error e
    | .ok (nextOffset, count) =>
      if nextOffset ≠ h.plaintextLength then .error (.spansShort nextOffset h.plaintextLength)
      else .ok count

/-- The segments of one span from `offset` to `stop`; `fuel` bounds their number. -/
def spanSegments (size : UInt64) (classTag : ClassTag) (stop : UInt64) :
    (fuel : Nat) → (offset stored index : UInt64) → List RecordSegment
  | 0, _, _, _ => []
  | fuel + 1, offset, stored, index =>
    if offset < stop then
      let remaining := stop - offset
      let length := if remaining < size then remaining else size
      let storedLength := length + UInt64.ofNat aeadOverhead
      ⟨index, offset, length.toUInt32, classTag, stored, storedLength⟩ ::
        spanSegments size classTag stop fuel (offset + length) (stored + storedLength) (index + 1)
    else []

/-- The loop of `Segments` over the spans. -/
def segmentsFrom (h : RecordHeader) : (stored index : UInt64) → List RecordSpan →
    Except FileError (List RecordSegment)
  | _, _, [] => .ok []
  | stored, index, span :: spans =>
    match classTagFromHex span.cls with
    | none => .error (.spanClass 0)
    | some classTag =>
      let segments := spanSegments h.segmentSize.toUInt64 classTag (span.offset + span.length)
        span.length.toNat span.offset stored index
      let stored := segments.foldl (fun stored s => stored + s.storedLength) stored
      match segmentsFrom h stored (index + UInt64.ofNat segments.length) spans with
      | .error e => .error e
      | .ok rest => .ok (segments ++ rest)

/-- `RecordHeader.Segments`. -/
def segments (h : RecordHeader) : Except FileError (List RecordSegment) :=
  match h.segmentCount with
  | .error e => .error e
  | .ok _ => h.segmentsFrom 0 0 h.spans

/-- `RecordHeader.SegmentAAD`. -/
def segmentAAD (h : RecordHeader) (segment : RecordSegment) (total : UInt64) :
    Except FileError SegmentAAD :=
  match caseUIDFromHex h.caseUID with
  | none => .error .caseUID
  | some caseUID =>
    match recordUIDFromHex h.recordUID with
    | none => .error .recordUID
    | some recordUID =>
      .ok { caseUID, recordUID, total, index := segment.index, offset := segment.offset,
            length := segment.length, generation := h.sealedUnderGeneration,
            classTag := segment.classTag }

/-! ### Reading the header -/

/-- `RecordHeader.validateQuantisation`. -/
def validateQuantisation (h : RecordHeader) : Except FileError Unit :=
  if h.roundsTo ≠ [] ∧ classTagFromHex h.roundsTo = none then .error .roundsTo
  else if h.quantum = 0 then
    if h.quantisedExtra ≠ 0 ∨ h.roundsTo ≠ [] then .error .roundingWithoutQuantum else .ok ()
  else if h.roundsTo = [] then .error (.quantumWithoutClass h.quantum)
  else if h.plaintextLength < h.quantisedExtra then
    .error (.roundingTooLarge h.quantisedExtra h.plaintextLength)
  else .ok ()

/-- The checks of `ParseRecordHeader` on a header that was decoded. -/
def validate (h : RecordHeader) : Except FileError Unit :=
  if h.format ≠ text "mutant-record" then .error (.format h.format)
  else if h.version ≠ 1 then .error (.version h.version)
  else if caseUIDFromHex h.caseUID = none then .error .caseUID
  else if recordUIDFromHex h.recordUID = none then .error .recordUID
  else if hexOfLength h.sealSalt sealSaltSize = none then .error .sealSalt
  else if h.sealedUnderGeneration < 1 ∨ h.wrappedUnderGeneration < 1 then
    .error (.generations h.sealedUnderGeneration h.wrappedUnderGeneration)
  else
    match h.validateQuantisation with
    | .error e => .error e
    | .ok () =>
      match h.segmentCount with
      | .error e => .error e
      | .ok _ => .ok ()

end RecordHeader

/-- `StoredDataSize`. -/
def storedDataSize (segments : List RecordSegment) : UInt64 :=
  segments.foldl (fun total segment => total + segment.storedLength) 0

/-! ### The text of the header and the footer -/

section

open Json Coding

def recordSpanFields : List (Json.Field RecordSpan) :=
  [field (text "offset") uint64 (·.offset) fun s v => { s with offset := v },
   field (text "length") uint64 (·.length) fun s v => { s with length := v },
   field (text "class") Coding.string (·.cls) fun s v => { s with cls := v }]

/-- The fields of a header; beside it stands what is left past the end of its spans. -/
def recordHeaderFields : List (Json.Field (RecordHeader × List RecordSpan)) :=
  [field (text "format") Coding.string (·.1.format) fun h v => ({ h.1 with format := v }, h.2),
   field (text "version") uint32 (·.1.version) fun h v => ({ h.1 with version := v }, h.2),
   field (text "record_uid") Coding.string (·.1.recordUID)
     fun h v => ({ h.1 with recordUID := v }, h.2),
   field (text "case_uid") Coding.string (·.1.caseUID) fun h v => ({ h.1 with caseUID := v }, h.2),
   field (text "case_key_id") Coding.string (·.1.caseKeyID)
     fun h v => ({ h.1 with caseKeyID := v }, h.2),
   field (text "sealed_under_generation") uint32 (·.1.sealedUnderGeneration)
     fun h v => ({ h.1 with sealedUnderGeneration := v }, h.2),
   field (text "wrapped_under_generation") uint32 (·.1.wrappedUnderGeneration)
     fun h v => ({ h.1 with wrappedUnderGeneration := v }, h.2),
   field (text "record_key_nonce") Coding.string (·.1.recordKeyNonce)
     fun h v => ({ h.1 with recordKeyNonce := v }, h.2),
   field (text "record_key_wrapped") Coding.string (·.1.recordKeyWrapped)
     fun h v => ({ h.1 with recordKeyWrapped := v }, h.2),
   field (text "seal_salt") Coding.string (·.1.sealSalt)
     fun h v => ({ h.1 with sealSalt := v }, h.2),
   field (text "plaintext_length") uint64 (·.1.plaintextLength)
     fun h v => ({ h.1 with plaintextLength := v }, h.2),
   field (text "segment_size") uint32 (·.1.segmentSize)
     fun h v => ({ h.1 with segmentSize := v }, h.2),
   field (text "quantum") uint32 (·.1.quantum) fun h v => ({ h.1 with quantum := v }, h.2),
   field (text "quantised_extra") uint64 (·.1.quantisedExtra)
     fun h v => ({ h.1 with quantisedExtra := v }, h.2),
   field (text "rounds_to") Coding.string (·.1.roundsTo)
     fun h v => ({ h.1 with roundsTo := v }, h.2),
   field (text "created") Coding.string (·.1.created) fun h v => ({ h.1 with created := v }, h.2),
   field (text "examiner") Coding.string (·.1.examiner)
     fun h v => ({ h.1 with examiner := v }, h.2),
   field (text "source") Coding.string (·.1.source) fun h v => ({ h.1 with source := v }, h.2),
   field (text "spans") (slice (struct recordSpanFields) ⟨0, 0, []⟩)
     (fun h => ⟨some h.1.spans, h.2⟩)
     fun h v => ({ h.1 with spans := v.items.getD [] }, v.past)]

def recordSealedBlockFields : List (Json.Field RecordSealedBlock) :=
  [field (text "nonce") Coding.string (·.nonce) fun b v => { b with nonce := v },
   field (text "blob") Coding.string (·.blob) fun b v => { b with blob := v }]

def recordFooterFields : List (Json.Field RecordFooter) :=
  [field (text "sealed_meta") (struct recordSealedBlockFields) (·.sealedMeta)
     fun f v => { f with sealedMeta := v },
   field (text "segments_root") Coding.string (·.segmentsRoot)
     fun f v => { f with segmentsRoot := v },
   field (text "signed") Coding.bool (·.signed) fun f v => { f with signed := v },
   field (text "signature_reason") Coding.string (·.signatureReason)
     fun f v => { f with signatureReason := v },
   field (text "public_key") Coding.string (·.publicKey) fun f v => { f with publicKey := v },
   field (text "signature") Coding.string (·.signature) fun f v => { f with signature := v },
   field (text "key_created_for_this_run") Coding.bool (·.keyCreatedForThisRun)
     fun f v => { f with keyCreatedForThisRun := v }]

end

/-- A header and a footer before anything is decoded into them. -/
def emptyHeader : RecordHeader :=
  ⟨[], 0, [], [], [], 0, 0, [], [], [], 0, 0, 0, 0, [], [], [], [], []⟩

def emptyFooter : RecordFooter := ⟨⟨[], []⟩, [], false, [], [], [], false⟩

/-- `ParseRecordHeader`. -/
def parseRecordHeader (data : Bytes) : Except FileError RecordHeader :=
  match decodeFile recordHeaderFields (emptyHeader, []) data with
  | none => .error .headerJson
  | some (header, _) =>
    match header.validate with
    | .error e => .error e
    | .ok () => .ok header

/-- `ParseRecordFooter`. -/
def parseRecordFooter (data : Bytes) : Except FileError RecordFooter :=
  match decodeFile recordFooterFields emptyFooter data with
  | none => .error .footerJson
  | some footer =>
    if hexOfLength footer.segmentsRoot digestSize = none then .error .segmentsRoot else .ok footer

variable (P : Primitives)

/-! ### The signature -/

/-- `SegmentDigest`. -/
def segmentDigest (aad : SegmentAAD) (ciphertext : Bytes) : Digest :=
  P.sha256 (aad.encode ++ ciphertext)

/-- What `SegmentsRoot` hashes. -/
def segmentsRootInput (digests : List Digest) : Bytes :=
  text "mutant-record-segments-root-v1" ++ BigEndian.put 8 (digests.length % 2 ^ 64) ++
    digests.flatMap Vector.toList

/-- `SegmentsRoot`. -/
def segmentsRoot (digests : List Digest) : Digest := P.sha256 (segmentsRootInput digests)

/-- `appendLengthPrefixed`, the part that is appended. -/
def lengthPrefixed (field : Bytes) : Bytes := BigEndian.put 8 (field.length % 2 ^ 64) ++ field

/-- `RecordSigningMessage`. -/
def recordSigningMessage (header : Bytes) (root : Digest) (sealedMeta : Bytes) : Bytes :=
  text "MRECSIG1" ++ lengthPrefixed header ++ root.toList ++ lengthPrefixed sealedMeta

/-- `footerMetaBytes`. -/
def footerMetaBytes (f : RecordFooter) : Bytes := f.sealedMeta.nonce ++ text "|" ++ f.sealedMeta.blob

/-- Whether `strings.TrimSpace` leaves nothing: the text is Unicode white space throughout. -/
def blank : Bytes → Bool
  | [] => true
  | 0xc2 :: b :: rest => (b == 0x85 || b == 0xa0) && blank rest
  | 0xe1 :: 0x9a :: 0x80 :: rest => blank rest
  | 0xe2 :: 0x80 :: b :: rest =>
    ((0x80 ≤ b && b ≤ 0x8a) || b == 0xa8 || b == 0xa9 || b == 0xaf) && blank rest
  | 0xe2 :: 0x81 :: 0x9f :: rest => blank rest
  | 0xe3 :: 0x80 :: 0x80 :: rest => blank rest
  | b :: rest => ((9 ≤ b && b ≤ 13) || b == 32) && blank rest

/-- `RecordFooterDisagreesWithItself`. -/
def recordFooterDisagreesWithItself (f : RecordFooter) : Bool :=
  !f.signed && (!blank f.signature || !blank f.publicKey || f.keyCreatedForThisRun)

/-- `ed25519.Verify`: the public key, the message, the signature. -/
abbrev Verifier := Vector UInt8 32 → Bytes → Vector UInt8 64 → Bool

/-- `VerifyRecordSignature`: whether there is a signature, whether it holds, and a note. -/
def verifyRecordSignature (verify : Verifier) (f : RecordFooter) (header : Bytes) (root : Digest) :
    Bool × Bool × Bytes :=
  if recordFooterDisagreesWithItself f then
    (false, false, text <| "the footer disagrees with itself: its signed field is false, yet it " ++
      "names a signer, carries a signature or says its signing key was made for this run, so the " ++
      "signature is neither credited nor checked")
  else if !f.signed then
    (false, false,
      if blank f.signatureReason then text "the record carries no signature" else f.signatureReason)
  else
    match hexOfLength f.publicKey 32 with
    | none => (true, false, text "the named signer is not an Ed25519 public key")
    | some publicKey =>
      match hexOfLength f.signature 64 with
      | none => (true, false, text "the signature is not an Ed25519 signature")
      | some signature =>
        match hexOfLength f.segmentsRoot digestSize with
        | none => (true, false, text "the footer's segment root is not a SHA-256 digest")
        | some want =>
          if want ≠ root then
            (true, false, text <| "the segments do not fold to the root the footer names, so the " ++
              "record's contents have changed since it was signed")
          else if verify publicKey (recordSigningMessage header root (footerMetaBytes f)) signature
          then (true, true, text "the signature authenticates the document, not the names in it")
          else (true, false, text "the signature does not cover this header and these segments")

end Mutant.Security
