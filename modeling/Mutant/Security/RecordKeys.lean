import Mutant.Security.Primitives

/-!
# The keys of a record

A model of the segment descriptors and the per-record key schedule of `security/record_crypto.go`.
-/

namespace Mutant.Security

/-! ### Descriptors -/

/-- What a segment is bound to. -/
structure SegmentAAD where
  caseUID : CaseUID
  recordUID : RecordUID
  index : UInt64
  total : UInt64
  offset : UInt64
  length : UInt32
  generation : UInt32
  classTag : ClassTag
deriving DecidableEq

/-- `SegmentAAD.encode`: the 104 bytes of a descriptor. -/
def SegmentAAD.encode (a : SegmentAAD) : Bytes :=
  text "MRECAAD1" ++ a.caseUID.toList ++ a.recordUID.toList ++ BigEndian.put 8 a.index.toNat ++
    BigEndian.put 8 a.total.toNat ++ BigEndian.put 8 a.offset.toNat ++
    BigEndian.put 4 a.length.toNat ++ BigEndian.put 4 a.generation.toNat ++ a.classTag.toList

/-! ### The schedule -/

/-- A record's key schedule; `prk` is nothing once it has been zeroed. -/
structure RecordKeys where
  caseUID : CaseUID
  uid : RecordUID
  generation : UInt32
  total : UInt64
  prk : Option Bytes
  sealable : Bool
  nextIndex : UInt64

variable (P : Primitives)

/-- `newRecordKeys`. -/
def newRecordKeys (caseUID : CaseUID) (uid : RecordUID) (generation : UInt32) (total : UInt64)
    (recordKey sealSalt : Bytes) (sealable : Bool) : Except RecordError RecordKeys :=
  if recordKey.length ≠ keySize then
    .error (.keyLength "a record key" keySize recordKey.length)
  else if sealSalt.length ≠ sealSaltSize then
    .error (.keyLength "a seal salt" sealSaltSize sealSalt.length)
  else if total = 0 then .error .emptyRecord
  else
    .ok { caseUID, uid, generation, total, sealable, nextIndex := 0,
          prk := some (P.extract recordKey (uid.toList ++ sealSalt)) }

/-- `NewRecordKeysForSeal`, given the key and the salt that were drawn. -/
def newRecordKeysForSeal (caseUID : CaseUID) (uid : RecordUID) (generation : UInt32)
    (total : UInt64) (recordKey : Vector UInt8 keySize) (sealSalt : Vector UInt8 sealSaltSize) :
    Except RecordError RecordKeys :=
  newRecordKeys P caseUID uid generation total recordKey.toList sealSalt.toList true

/-- `OpenRecordKeys`. -/
def openRecordKeys (caseUID : CaseUID) (uid : RecordUID) (generation : UInt32) (total : UInt64)
    (recordKey sealSalt : Bytes) : Except RecordError RecordKeys :=
  newRecordKeys P caseUID uid generation total recordKey sealSalt false

namespace RecordKeys

/-- `RecordKeys.SealComplete`. -/
def sealComplete (r : RecordKeys) : Bool := r.sealable && r.nextIndex == r.total

/-- `RecordKeys.SegmentAAD`. -/
def segmentAAD (r : RecordKeys) (index offset : UInt64) (length : UInt32) (classTag : ClassTag) :
    SegmentAAD :=
  { caseUID := r.caseUID, recordUID := r.uid, total := r.total, generation := r.generation,
    index, offset, length, classTag }

/-- What a segment's material is expanded with. -/
def segmentInfo (aad : Bytes) : Bytes :=
  text "mutant-record-segment-v1" ++ text "|" ++ Hex.encode (P.sha256 aad).toList

/-- The 56 bytes a segment's key and nonce are cut from. -/
def material (prk aad : Bytes) : Vector UInt8 (keySize + nonceSize) :=
  P.expand prk (segmentInfo P aad) (keySize + nonceSize)

/-- `RecordKeys.segmentMaterial`: the key and the nonce of a segment. -/
def segmentMaterial (prk aad : Bytes) : Bytes × XNonce :=
  ((material P prk aad).toList.take keySize, (material P prk aad).drop keySize)

/-- `RecordKeys.SealSegment`: the ciphertext, its digest, and the schedule after it. -/
def sealSegment (r : RecordKeys) (aad : SegmentAAD) (plaintext : Bytes) :
    Except RecordError ((Bytes × Digest) × RecordKeys) :=
  match r.prk with
  | none => .error .zeroed
  | some prk =>
    if !r.sealable then .error .canOnlyOpen
    else if aad.total ≤ aad.index then
      .error (.outOfRange aad.index.toNat aad.total.toNat)
    else if aad.index ≠ r.nextIndex then
      .error (.notNext aad.index.toNat r.nextIndex.toNat r.total.toNat)
    else if aad.length.toNat ≠ plaintext.length then
      .error (.lengthMismatch aad.length.toNat plaintext.length)
    else
      let (key, nonce) := segmentMaterial P prk aad.encode
      match sealWith P key nonce plaintext aad.encode with
      | .error e => .error e
      | .ok ciphertext =>
        .ok ((ciphertext, P.sha256 (aad.encode ++ ciphertext)),
          { r with nextIndex := r.nextIndex + 1 })

/-- The schedule takes the segment: it can seal, the descriptor is in its own range and next in
line, and the plaintext is as long as it says and not too long. -/
def Takes (r : RecordKeys) (aad : SegmentAAD) (plaintext : Bytes) : Prop :=
  r.sealable = true ∧ aad.index < aad.total ∧ aad.index = r.nextIndex ∧
    aad.length.toNat = plaintext.length ∧ plaintext.length ≤ maxSegmentPlaintext

end RecordKeys

end Mutant.Security
