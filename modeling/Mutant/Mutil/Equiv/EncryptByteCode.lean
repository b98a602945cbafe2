import Mutant.Mutil.EncryptByteCode
import Mutant.Mutil.Equiv.SealedValue
import Mutant.Security.Equiv.SecureRandom

/-!
# What covering a program returns

A program is covered as long as the cipher lasts for each of its streams.  The stream a value is
sealed with is the same one, byte by byte.

* `encryptByteCode_of_le`: the program is covered;
* `secureXORAt_keystreamOf`: the stream of a sealed value.
-/

namespace Mutant.Mutil

open Mutant.Security (Bytes Primitives ChaCha20Block StreamFault streamLength)

variable {κ : Type}

/-- How a call of the cipher ends, in the words of the sealed values. -/
def faultOf : StreamFault → Fault
  | .error message => .error message
  | .panic => .crash

variable {P : Primitives} {block : ChaCha20Block}

/-- As long as it lasts, the stream that values are sealed with is the one of the instructions. -/
theorem secureXORAt_keystreamOf {data password : Bytes} {seed offset : Int}
    (hfits : Security.streamPosition offset.toNat + data.length ≤ streamLength) :
    secureXORAt (keystreamOf P block) data seed password offset =
      (Security.secureXORAt P block data (Int64.ofInt seed) password offset).mapError faultOf := by
  rw [secureXORAt, Security.secureXORAt]
  split_ifs with hdata hoffset
  · rfl
  · rfl
  · dsimp only
    rw [Security.xorAtOffset_eq, if_pos hfits]
    rfl

theorem coverOrKeep_of_le (P : Primitives) (block : ChaCha20Block) {plain : Bytes}
    (hfits : plain.length ≤ streamLength) (insLen : Nat) (pw : Bytes) :
    ∃ covered, coverOrKeep P block plain insLen pw = .ok covered := by
  rw [coverOrKeep]
  by_cases hpl : plain = []
  · rw [hpl]
    exact ⟨[], rfl⟩
  · rw [Security.secureXOR_eq P block _ _ hpl, if_pos hfits]
    exact ⟨_, rfl⟩

/-- A constant is covered when the cipher lasts for it. -/
theorem encryptPoolConstant_of_le {con : Constant κ} (hfits : ∀ is, con = .function is →
      is.length ≤ streamLength) (insLen : Nat) (pw : Bytes) :
    ∃ covered, encryptPoolConstant P block insLen pw con = .ok covered := by
  cases con with
  | function is =>
    obtain ⟨covered, hcover⟩ := coverOrKeep_of_le P block (hfits is rfl) insLen pw
    refine ⟨.function covered, ?_⟩
    rw [encryptPoolConstant, hcover]
    rfl
  | scalar v =>
    rw [encryptPoolConstant]
    cases encryptScalar (keystreamOf P block) ⟨insLen, pw⟩ v with
    | ok sealed => exact ⟨.encrypted sealed, rfl⟩
    | error fault => exact ⟨.scalar v, rfl⟩
  | encrypted v => exact ⟨.encrypted v, rfl⟩

/-- Every program whose streams the cipher lasts for is covered. -/
theorem encryptByteCode_of_le (P : Primitives) (block : ChaCha20Block)
    (byteCode : CompiledByteCode κ) (pw : Bytes)
    (hmain : byteCode.instructions.length ≤ streamLength)
    (hfunctions : ∀ instructions, .function instructions ∈ byteCode.constants →
      instructions.length ≤ streamLength) :
    ∃ covered, encryptByteCode P block byteCode pw = .ok covered := by
  obtain ⟨instructions, hcover⟩ := coverOrKeep_of_le P block hmain byteCode.instructions.length
    (streamPassword P byteCode.instructions pw)
  obtain ⟨constants, hcs⟩ := Result.exists_mapM (l := byteCode.constants)
    (f := encryptPoolConstant P block byteCode.instructions.length
      (streamPassword P byteCode.instructions pw))
    fun con hmem => encryptPoolConstant_of_le
      (fun instructions heq => hfunctions instructions (heq ▸ hmem)) _ _
  refine ⟨{ byteCode with instructions := instructions, constants := constants }, ?_⟩
  rw [encryptByteCode, hcover]
  rw [hcs]
  rfl

end Mutant.Mutil
