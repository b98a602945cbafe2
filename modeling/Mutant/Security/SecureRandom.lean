import Mutant.Lib.BlockStream
import Mutant.Security.Primitives

/-!
# The stream instructions and values are covered with

ChaCha20 under a key and a nonce that a seed and a password give.  The stream is entered at any
offset: the counter is set to the block the offset is in, and the bytes of the block before it are
discarded.
-/

namespace Mutant.Security

open BlockStream

/-! ### The cipher -/

/-- The key of a stream. -/
abbrev StreamKey := Vector UInt8 32

/-- The nonce of a stream. -/
abbrev StreamNonce := Vector UInt8 12

def streamSeedByteSize : Nat := 8
def streamBlockSize : Nat := 64

/-- The ChaCha20 block function. -/
abbrev ChaCha20Block := StreamKey → StreamNonce → (counter : UInt32) → Vector UInt8 streamBlockSize

/-- How many blocks a cipher makes: its counter has 32 bits. -/
def streamBlockLimit : Nat := 2 ^ 32

/-- `chacha20.NewUnauthenticatedCipher`, for a key and a nonce of the right lengths. -/
def newUnauthenticatedCipher (block : ChaCha20Block) (key : StreamKey) (nonce : StreamNonce) :
    Cipher streamBlockSize :=
  { block := fun counter => block key nonce (UInt32.ofNat counter) }

/-- How a call ends that does not return a value. -/
inductive StreamFault where
  | error (message : String)
  /-- The cipher panics: it has no block left, or is set back. -/
  | panic
deriving DecidableEq, Repr

/-- What the cipher returns, where it does not panic. -/
def orPanic {α : Type} : Option α → Except StreamFault α
  | some a => .ok a
  | none => .error .panic

/-! ### Keys -/

/-- `deriveStreamKeyAndNonce`. -/
def deriveStreamKeyAndNonce (P : Primitives) (seed : Int64) (password : Bytes) :
    StreamKey × StreamNonce :=
  let seedBytes := (BigEndian.put streamSeedByteSize seed.toUInt64.toNat).reverse
  let baseMaterial := text "mutant-stream-v1|" ++ seedBytes ++ text "|" ++ password
  let keyHash := P.sha256 (text "key|" ++ baseMaterial)
  let nonceHash := P.sha256 (text "nonce|" ++ baseMaterial)
  (keyHash, Vector.ofFn fun i => nonceHash.get (i.castLE (by decide)))

/-- `XORStream`. -/
structure XORStream where
  key : StreamKey
  nonce : StreamNonce
deriving DecidableEq

/-- `NewXORStream`. -/
def newXORStream (P : Primitives) (seed : Int64) (password : Bytes) : XORStream :=
  let (key, nonce) := deriveStreamKeyAndNonce P seed password
  { key := key, nonce := nonce }

/-! ### Entering the stream at an offset -/

/-- `SetCounter`, which is called only for a block that is not the first. -/
def setBlock (cipher : Cipher streamBlockSize) (blockOffset : Nat) :
    Except StreamFault (Cipher streamBlockSize) :=
  if 0 < blockOffset then orPanic (cipher.setCounter blockOffset) else .ok cipher

/-- The first `skip` bytes of the stream are made and thrown away. -/
def discard (cipher : Cipher streamBlockSize) (skip : Nat) :
    Except StreamFault (Cipher streamBlockSize) :=
  if 0 < skip then
    Prod.snd <$> orPanic (cipher.xorKeyStream streamBlockLimit (List.replicate skip 0))
  else .ok cipher

/-- What is common to the functions below once their arguments have passed: a new cipher, set to the
block of the offset, less the bytes before the offset. -/
def xorAtOffset (block : ChaCha20Block) (key : StreamKey) (nonce : StreamNonce) (data : Bytes)
    (offset : Int) : Except StreamFault Bytes := do
  let cipher := newUnauthenticatedCipher block key nonce
  -- `uint32(offset / streamBlockSize)` keeps the low 32 bits.
  let cipher ← setBlock cipher (offset.toNat / streamBlockSize % 2 ^ 32)
  let cipher ← discard cipher (offset.toNat % streamBlockSize)
  Prod.fst <$> orPanic (cipher.xorKeyStream streamBlockLimit data)

/-- `SecureXORAt`. -/
def secureXORAt (P : Primitives) (block : ChaCha20Block) (data : Bytes) (seed : Int64)
    (password : Bytes) (offset : Int) : Except StreamFault Bytes :=
  if data.length = 0 then .error (.error "data cannot be empty")
  else if offset < 0 then .error (.error "offset cannot be negative")
  else
    let (key, nonce) := deriveStreamKeyAndNonce P seed password
    xorAtOffset block key nonce data offset

/-- `SecureXOR`. -/
def secureXOR (P : Primitives) (block : ChaCha20Block) (data : Bytes) (seed : Int64)
    (password : Bytes) : Except StreamFault Bytes :=
  secureXORAt P block data seed password 0

/-- `XORStream.XOROneAt`. -/
def XORStream.xorOneAt (block : ChaCha20Block) (s : XORStream) (b : UInt8) (offset : Int) :
    Except StreamFault UInt8 :=
  if offset < 0 then .error (.error "offset cannot be negative")
  else do
    let out ← xorAtOffset block s.key s.nonce [b] offset
    orPanic out.head?

/-- `XORStream.XORAt`. -/
def XORStream.xorAt (block : ChaCha20Block) (s : XORStream) (data : Bytes) (offset : Int) :
    Except StreamFault Bytes :=
  if data.length = 0 then .error (.error "data cannot be empty")
  else if offset < 0 then .error (.error "offset cannot be negative")
  else xorAtOffset block s.key s.nonce data offset

/-- `SecureXOROneAt`. -/
def secureXOROneAt (P : Primitives) (block : ChaCha20Block) (instruction : UInt8) (seed : Int64)
    (password : Bytes) (offset : Int) : Except StreamFault UInt8 := do
  let res ← secureXORAt P block [instruction] seed password offset
  orPanic res.head?

/-- `DerivePasswordFromInstructions`. -/
def derivePasswordFromInstructions (P : Primitives) (instructions : Bytes) : UInt64 :=
  if instructions.length = 0 then 0
  else UInt64.ofNat (BigEndian.get ((P.sha256 instructions).toList.take 8).reverse)

end Mutant.Security
