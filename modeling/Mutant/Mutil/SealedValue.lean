import Mutant.Security.SecureRandom

/-!
# Values sealed in memory

The stream every instruction and every stored value is covered with, and how a scalar is sealed
under it and opened again.
-/

namespace Mutant.Mutil

open BlockStream (cover)
open Mutant.Security (Bytes text streamBlockSize)

/-! ### The stream -/

/-- The ChaCha20 stream under the key and the nonce a seed and a password give. -/
abbrev Keystream := (seed : Int) → (password : Bytes) → (position : Nat) → UInt8

/-- How a call ends that does not return a value. -/
inductive Fault where
  | error (message : String)
  | crash
  deriving Repr, DecidableEq

/-- `SecureXORAt` for a text that the stream lasts for (`secureXORAt_keystreamOf`): the counter of the
cipher's blocks has 32 bits. -/
def secureXORAt (K : Keystream) (data : Bytes) (seed : Int) (password : Bytes) (offset : Int) :
    Except Fault Bytes :=
  if data.length = 0 then .error (.error "data cannot be empty")
  else if offset < 0 then .error (.error "offset cannot be negative")
  else
    let blockOffset := offset.toNat / streamBlockSize % 2 ^ 32
    let skip := offset.toNat % streamBlockSize
    .ok (cover (K seed password) (blockOffset * streamBlockSize + skip) data)

/-- `SecureXOR`. -/
def secureXOR (K : Keystream) (data : Bytes) (seed : Int) (password : Bytes) :
    Except Fault Bytes :=
  secureXORAt K data seed password 0

/-! ### Scalars -/

/-- A scalar value; `κ` is what a buffer's classification mark says. -/
inductive Scalar (κ : Type) where
  | integer (value : Int64)
  /-- A float is its bits. -/
  | float (bits : UInt64)
  | boolean (value : Bool)
  | string (value : Bytes)
  | bytes (value : Bytes) (classified : Option κ)
  | null
  deriving Repr, DecidableEq

/-- The `EncType` of a sealed scalar. -/
inductive EncType where
  | integer
  | float
  | boolean
  | string
  | bytes
  | null
  deriving Repr, DecidableEq

/-- `object.Encrypted`. -/
structure Encrypted (κ : Type) where
  encType : EncType
  value : Bytes
  seed : Int
  classified : Option κ
  deriving Repr, DecidableEq

/-- An entry of a constant pool: a function is the object at an address. -/
inductive Object (κ : Type) where
  | compiledFunction (address : Nat)
  | scalar (value : Scalar κ)
  | encrypted (value : Encrypted κ)
  deriving Repr, DecidableEq

variable {κ : Type}

/-- `binary.LittleEndian.PutUint64`. -/
def putUint64 (n : UInt64) : Bytes := (BigEndian.put 8 n.toNat).reverse

/-- `binary.LittleEndian.Uint64`, which reads the first eight bytes and needs them. -/
def getUint64 (data : Bytes) : Except Fault UInt64 :=
  if data.length < 8 then .error .crash
  else .ok (UInt64.ofNat (BigEndian.get (data.take 8).reverse))

/-- `strconv.FormatBool`. -/
def formatBool : Bool → Bytes
  | true => text "true"
  | false => text "false"

/-- `strings.ToLower` as far as a comparison with `"true"` goes: no letter outside of ASCII has
`t`, `r`, `u` or `e` as its lower case. -/
def toLower (data : Bytes) : Bytes := data.map fun b => if 65 ≤ b ∧ b ≤ 90 then b + 32 else b

/-- `sealKey`, without the stream the virtual machine may hand in: it is the stream of the key's
own seed. -/
structure SealKey where
  length : Nat
  password : Bytes

def SealKey.seed (key : SealKey) : Int := key.length

def SealKey.xorAtSeed (K : Keystream) (key : SealKey) (data : Bytes) (seed : Int) :
    Except Fault Bytes :=
  secureXOR K data seed key.password

def SealKey.xor (K : Keystream) (key : SealKey) (data : Bytes) : Except Fault Bytes :=
  key.xorAtSeed K data key.seed

/-- `xorPayload`: nothing is nothing under every key. -/
def SealKey.xorPayload (K : Keystream) (key : SealKey) (data : Bytes) : Except Fault Bytes :=
  if data.length = 0 then .ok [] else key.xor K data

/-- A scalar's arm of `encryptObject`. -/
def encryptScalar (K : Keystream) (key : SealKey) : Scalar κ → Except Fault (Encrypted κ)
  | .integer value => do
    let xored ← key.xor K (putUint64 value.toUInt64)
    return { encType := .integer, value := xored, seed := key.seed, classified := none }
  | .string value => do
    let xored ← key.xorPayload K value
    return { encType := .string, value := xored, seed := key.seed, classified := none }
  | .bytes value classified => do
    let xored ← key.xorPayload K value
    return { encType := .bytes, value := xored, seed := key.seed, classified := classified }
  | .boolean value => do
    let xored ← key.xor K (formatBool value)
    return { encType := .boolean, value := xored, seed := key.seed, classified := none }
  | .float bits => do
    let xored ← key.xor K (putUint64 bits)
    return { encType := .float, value := xored, seed := key.seed, classified := none }
  | .null => .ok { encType := .null, value := [], seed := key.seed, classified := none }

/-- `encryptObject` on an entry of a constant pool. -/
def encryptObject (K : Keystream) (key : SealKey) : Option (Object κ) → Except Fault (Object κ)
  | none => .error (.error "nil obj")
  | some (.encrypted value) => .ok (.encrypted value)
  | some (.compiledFunction address) => .ok (.compiledFunction address)
  | some (.scalar value) => do
    let encrypted ← encryptScalar K key value
    return .encrypted encrypted

/-- What the bytes of a sealed value say once the stream is off. -/
def decodeScalar (encType : EncType) (classified : Option κ) (xored : Bytes) :
    Except Fault (Scalar κ) :=
  match encType with
  | .integer => do return .integer (← getUint64 xored).toInt64
  | .string => .ok (.string xored)
  | .bytes => .ok (.bytes xored classified)
  | .boolean => .ok (.boolean (toLower xored == text "true"))
  | .float => do return .float (← getUint64 xored)
  | .null => .ok .null

/-- `decryptObject` on a sealed value.  A recorded seed of zero counts as none. -/
def decryptEncrypted (K : Keystream) (key : SealKey) (encrypted : Encrypted κ) :
    Except Fault (Scalar κ) :=
  if encrypted.encType = .null then .ok .null
  else if encrypted.value.length = 0 ∧ encrypted.encType = .string then .ok (.string [])
  else if encrypted.value.length = 0 ∧ encrypted.encType = .bytes then
    .ok (.bytes [] encrypted.classified)
  else do
    let seed := if encrypted.seed ≠ 0 then encrypted.seed else key.seed
    let xored ← key.xorAtSeed K encrypted.value seed
    decodeScalar encrypted.encType encrypted.classified xored

/-- `decryptObject` on an entry of a constant pool. -/
def decryptObject (K : Keystream) (key : SealKey) : Option (Object κ) → Except Fault (Object κ)
  | none => .error (.error "nil obj")
  | some (.encrypted value) => do return .scalar (← decryptEncrypted K key value)
  | some object => .ok object

end Mutant.Mutil
