import Mathlib.Data.Vector.Defs
import Mutant.Lib.BigEndian
import Mutant.Lib.Hex

/-!
# What the record files rest on

Bytes, and the primitives of the cryptographic libraries the source calls.  Nothing here says how
they compute: they are functions, and what is assumed of them is stated where it is needed.
-/

namespace Mutant.Security

abbrev Bytes := List UInt8

instance Bytes.lawfulBEq : LawfulBEq Bytes := List.instLawfulBEq

/-- The bytes of a Go string. -/
def text (s : String) : Bytes := s.toUTF8.data.toList

def keySize : Nat := 32
def nonceSize : Nat := 24
def caseUIDSize : Nat := 16
def recordUIDSize : Nat := 16
def sealSaltSize : Nat := 16
def digestSize : Nat := 32

/-- What the cipher adds to a plaintext. -/
def aeadOverhead : Nat := 16

/-- `MaxSegmentPlaintext`. -/
def maxSegmentPlaintext : Nat := 2 ^ 20

abbrev CaseUID := Vector UInt8 caseUIDSize
abbrev RecordUID := Vector UInt8 recordUIDSize
abbrev ClassTag := Vector UInt8 digestSize
abbrev XNonce := Vector UInt8 nonceSize
abbrev Digest := Vector UInt8 digestSize

/-- The primitives. -/
structure Primitives where
  sha256 : Bytes → Digest
  /-- `hkdf.Extract` over SHA-256. -/
  extract : (ikm salt : Bytes) → Bytes
  /-- `hkdf.Expand` over SHA-256. -/
  expand : (prk info : Bytes) → (length : Nat) → Vector UInt8 length
  /-- `Seal` of XChaCha20-Poly1305. -/
  aeadSeal : (key : Vector UInt8 keySize) → (nonce : XNonce) → (plaintext aad : Bytes) → Bytes
  /-- `Open` of XChaCha20-Poly1305: nothing where the tag does not fit. -/
  aeadOpen : (key : Vector UInt8 keySize) → (nonce : XNonce) → (ciphertext aad : Bytes) →
    Option Bytes
  /-- `argon2.IDKey`. -/
  argon2id : (passphrase salt : Bytes) → (time memoryKiB : UInt32) → (threads : UInt8) →
    (keyLen : UInt32) → Bytes

/-- The cipher opens what it sealed, and a ciphertext is as long as it should be. -/
structure Primitives.AeadCorrect (P : Primitives) : Prop where
  length_seal : ∀ key nonce plaintext aad,
    (P.aeadSeal key nonce plaintext aad).length = plaintext.length + aeadOverhead
  open_seal : ∀ key nonce plaintext aad,
    P.aeadOpen key nonce (P.aeadSeal key nonce plaintext aad) aad = some plaintext

/-- No two of the messages have one digest. -/
def Primitives.CollisionFree (P : Primitives) (messages : Bytes → Prop) : Prop :=
  ∀ a b, messages a → messages b → P.sha256 a = P.sha256 b → a = b

/-! ### Errors -/

/-- The errors of the record layer. -/
inductive RecordError
  | emptyRecord
  | keyLength (what : String) (want got : Nat)
  | zeroed
  | canOnlyOpen
  | outOfRange (index total : Nat)
  | notNext (index next total : Nat)
  | lengthMismatch (declared got : Nat)
  | tooLong (what : String) (limit got : Nat)
  | auth (message : String)
deriving DecidableEq

/-- The message of `ErrSegmentAuth`. -/
def errSegmentAuth : RecordError := .auth "the segment does not open under this key and position"

/-- The text of an error. -/
def RecordError.message : RecordError → String
  | .emptyRecord => "a record must have at least one segment"
  | .keyLength what want got => s!"{what} must be {want} bytes, got {got}"
  | .zeroed => "the record key schedule has been zeroed"
  | .canOnlyOpen =>
    "this record handle can only open: a record is sealed once, and sealing again under the same " ++
      "key and seal salt would reuse a nonce. Mint a new record with NewRecordKeysForSeal"
  | .outOfRange index total =>
    s!"segment {index} is out of range for a record of {total} segments"
  | .notNext index next total =>
    s!"segment {index} cannot be sealed here: this record has sealed {next} of its {total} " ++
      s!"segments and the next one it will accept is {next}. A record is sealed once, in order, " ++
      "and every segment exactly once -- sealing a position twice would put two plaintexts " ++
      "under one keystream. To change what a position holds, mint a new record"
  | .lengthMismatch declared got => s!"the segment says it is {declared} bytes and the buffer is {got}"
  | .tooLong what limit got => s!"{what} must be at most {limit} bytes, got {got}"
  | .auth message => message

/-! ### The cipher -/

variable (P : Primitives)

/-- A key of the right length. -/
def keyOfBytes (key : Bytes) : Option (Vector UInt8 keySize) :=
  if h : key.length = keySize then some ⟨key.toArray, by rw [List.size_toArray, h]⟩ else none

/-- `sealWithLimit`. -/
def sealWithLimit (key : Bytes) (nonce : XNonce) (plaintext aad : Bytes) (limit : Nat)
    (what : String) : Except RecordError Bytes :=
  match keyOfBytes key with
  | none => .error (.keyLength "a key" keySize key.length)
  | some key =>
    if limit < plaintext.length then .error (.tooLong what limit plaintext.length)
    else .ok (P.aeadSeal key nonce plaintext aad)

/-- `sealWith`. -/
def sealWith (key : Bytes) (nonce : XNonce) (plaintext aad : Bytes) : Except RecordError Bytes :=
  sealWithLimit P key nonce plaintext aad maxSegmentPlaintext "a segment"

/-- `openWithLimit`. -/
def openWithLimit (key : Bytes) (nonce : XNonce) (ciphertext aad : Bytes) (authErr : RecordError)
    (limit : Nat) (what : String) : Except RecordError Bytes :=
  match keyOfBytes key with
  | none => .error (.keyLength "a key" keySize key.length)
  | some key =>
    if ciphertext.length < aeadOverhead then .error authErr
    else if limit + aeadOverhead < ciphertext.length then
      .error (.tooLong what limit (ciphertext.length - aeadOverhead))
    else
      match P.aeadOpen key nonce ciphertext aad with
      | none => .error authErr
      | some plaintext => .ok plaintext

/-- `openWith`. -/
def openWith (key : Bytes) (nonce : XNonce) (ciphertext aad : Bytes) (authErr : RecordError) :
    Except RecordError Bytes :=
  openWithLimit P key nonce ciphertext aad authErr maxSegmentPlaintext "a segment"

end Mutant.Security
