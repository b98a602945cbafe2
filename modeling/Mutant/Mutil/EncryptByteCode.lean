import Mutant.Lib.Utf8
import Mutant.Mutil.SealedValue

/-!
# A compiled program under its password

`EncryptByteCode` covers the main instruction stream and every function's, each from the start of
the one stream that the length of the main stream and the password give.
-/

namespace Mutant.Mutil

open Mutant.Security (Bytes Primitives ChaCha20Block StreamFault)

/-- An entry of the constant pool, with a function as the instructions it holds. -/
inductive Constant (κ : Type) where
  | function (instructions : Bytes)
  | scalar (value : Scalar κ)
  | encrypted (value : Encrypted κ)
  deriving Repr, DecidableEq

/-- `compiler.ByteCode`, as far as covering and reading its instructions goes. -/
structure CompiledByteCode (κ : Type) where
  instructions : Bytes
  constants : List (Constant κ)
  opcodeMap : Bytes := []
  deriving Repr, DecidableEq

variable {κ : Type}

/-- The stream a seed and a password give, byte by byte. -/
def keystreamOf (P : Primitives) (block : ChaCha20Block) : Keystream :=
  fun seed password position =>
    let (key, nonce) := Security.deriveStreamKeyAndNonce P (Int64.ofInt seed) password
    BlockStream.byteAt (Security.newUnauthenticatedCipher block key nonce).block position

/-- `string(rune(n))`: the low 32 bits as a code point. -/
def stringOfRune (n : UInt64) : Bytes := Utf8.encode (n.toNat % 2 ^ 32)

/-- The password a program is covered under: without one, it is derived from the program. -/
def streamPassword (P : Primitives) (instructions password : Bytes) : Bytes :=
  if password = [] then stringOfRune (Security.derivePasswordFromInstructions P instructions)
  else password

/-- A stream that could not be covered is kept as it is. -/
def coverOrKeep (P : Primitives) (block : ChaCha20Block) (data : Bytes) (insLen : Nat)
    (password : Bytes) : Except StreamFault Bytes :=
  match Security.secureXOR P block data (Int64.ofNat insLen) password with
  | .ok xored => .ok xored
  | .error (.error _) => .ok data
  | .error .panic => .error .panic

/-- One turn of `EncryptByteCode`'s loop over the constants. -/
def encryptPoolConstant (P : Primitives) (block : ChaCha20Block) (insLen : Nat) (password : Bytes) :
    Constant κ → Except StreamFault (Constant κ)
  | .function instructions => do
    return .function (← coverOrKeep P block instructions insLen password)
  | .scalar value =>
    match encryptScalar (keystreamOf P block) { length := insLen, password := password } value with
    | .ok sealed => .ok (.encrypted sealed)
    | .error _ => .ok (.scalar value)
  | .encrypted value => .ok (.encrypted value)

/-- `EncryptByteCode`. -/
def encryptByteCode (P : Primitives) (block : ChaCha20Block) (byteCode : CompiledByteCode κ)
    (password : Bytes) : Except StreamFault (CompiledByteCode κ) := do
  let insLen := byteCode.instructions.length
  let password := streamPassword P byteCode.instructions password
  let instructions ← coverOrKeep P block byteCode.instructions insLen password
  let constants ← byteCode.constants.mapM (encryptPoolConstant P block insLen password)
  return { byteCode with instructions := instructions, constants := constants }

end Mutant.Mutil
