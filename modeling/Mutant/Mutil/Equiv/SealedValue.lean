import Mutant.Mutil.SealedValue

/-!
# What a sealed scalar opens to

A scalar opens to itself under the seed it was sealed with.  That seed is recorded with it, but a
recorded zero counts as none, and the length of the line that reads it is taken in its place.

* `encryptScalar_eq`: what is sealed;
* `decryptEncrypted_own`: what it opens to.
-/

namespace Mutant.Mutil

open List
open BlockStream (cover cover_cover length_cover)
open Mutant.Security (Bytes)

variable {data : Bytes}

/-! ### The stream -/

@[simp] theorem cover_nil (stream : Nat → UInt8) (start : Nat) : cover stream start [] = [] := rfl

theorem secureXOR_of_ne_nil (K : Keystream) (h : data ≠ []) (seed : Int)
    (pw : Bytes) : secureXOR K data seed pw = .ok (cover (K seed pw) 0 data) := by
  have hlen : ¬ data.length = 0 := fun hzero => h (length_eq_zero_iff.mp hzero)
  rw [secureXOR, secureXORAt, if_neg hlen]
  rfl

/-! ### Eight bytes -/

@[simp] theorem length_putUint64 (n : UInt64) : (putUint64 n).length = 8 := by
  rw [putUint64, length_reverse, BigEndian.length_put]

theorem getUint64_putUint64 (n : UInt64) : getUint64 (putUint64 n) = .ok n := by
  have hlen : ¬ (putUint64 n).length < 8 := by simp
  have htake : (putUint64 n).take 8 = putUint64 n := take_of_length_le (by simp)
  have hn : n.toNat < 256 ^ 8 := n.toNat_lt
  rw [getUint64, if_neg hlen, htake, putUint64, reverse_reverse, BigEndian.get_put hn,
    UInt64.ofNat_toNat]

/-- Eight bytes are those of the number they are read as. -/
theorem eq_putUint64_of_getUint64 {n : UInt64} (hlen : data.length = 8)
    (h : getUint64 data = .ok n) : data = putUint64 n := by
  have htake : data.take 8 = data := take_of_length_le (by omega)
  have hreverse : data.reverse.length = 8 := by rw [length_reverse, hlen]
  have hput := BigEndian.put_get data.reverse
  rw [hreverse] at hput
  have hbd : BigEndian.get data.reverse < 2 ^ 64 := by
    have := BigEndian.get_lt data.reverse
    rwa [hreverse] at this
  rw [getUint64, if_neg (by omega), htake] at h
  have hn : n.toNat = BigEndian.get data.reverse := by
    rw [← Except.ok.inj h, UInt64.toNat_ofNat_of_lt' hbd]
  rw [putUint64, hn, hput, reverse_reverse]

/-! ### Sealing -/

variable {κ : Type}

namespace Scalar

def encType : Scalar κ → EncType
  | .integer _ => .integer
  | .float _ => .float
  | .boolean _ => .boolean
  | .string _ => .string
  | .bytes _ _ => .bytes
  | .null => .null

/-- The bytes the stream is put on. -/
def payload : Scalar κ → Bytes
  | .integer value => putUint64 value.toUInt64
  | .float bits => putUint64 bits
  | .boolean value => formatBool value
  | .string value => value
  | .bytes value _ => value
  | .null => []

def classified : Scalar κ → Option κ
  | .bytes _ classified => classified
  | _ => none

end Scalar

/-- The scalar under the key. -/
def sealedScalar (K : Keystream) (key : SealKey) (value : Scalar κ) : Encrypted κ where
  encType := value.encType
  value := cover (K key.seed key.password) 0 value.payload
  seed := key.seed
  classified := value.classified

theorem SealKey.xorPayload_eq (K : Keystream) (key : SealKey) (data : Bytes) :
    key.xorPayload K data = .ok (cover (K key.seed key.password) 0 data) := by
  rw [SealKey.xorPayload]
  split
  · next h => rw [length_eq_zero_iff.mp h, cover_nil]
  · next h => exact secureXOR_of_ne_nil K (fun hnil => h (length_eq_zero_iff.mpr hnil)) _ _

theorem SealKey.xor_eq (K : Keystream) (key : SealKey) (h : data ≠ []) :
    key.xor K data = .ok (cover (K key.seed key.password) 0 data) :=
  secureXOR_of_ne_nil K h _ _

theorem putUint64_ne_nil (n : UInt64) : putUint64 n ≠ [] := by
  intro h
  have := length_putUint64 n
  rw [h] at this
  cases this

theorem formatBool_ne_nil (v : Bool) : formatBool v ≠ [] := by
  cases v <;> decide

theorem encryptScalar_eq (K : Keystream) (key : SealKey) (v : Scalar κ) :
    encryptScalar K key v = .ok (sealedScalar K key v) := by
  cases v with
  | integer v => rw [encryptScalar]; rfl
  | float bits => rw [encryptScalar]; rfl
  | boolean v => rw [encryptScalar, SealKey.xor_eq K key (formatBool_ne_nil _)]; rfl
  | string v => rw [encryptScalar, SealKey.xorPayload_eq]; rfl
  | bytes v classified => rw [encryptScalar, SealKey.xorPayload_eq]; rfl
  | null => rfl

/-! ### Opening -/

/-- The bytes of a scalar say what it is. -/
theorem decodeScalar_payload (value : Scalar κ) :
    decodeScalar value.encType value.classified value.payload = .ok value := by
  cases value with
  | integer value =>
    simp only [decodeScalar, Scalar.payload, getUint64_putUint64]
    rfl
  | float bits =>
    simp only [decodeScalar, Scalar.payload, getUint64_putUint64]
    rfl
  | boolean value => cases value <;> rfl
  | string value => rfl
  | bytes value classified => rfl
  | null => rfl

/-- The seed a sealed value is opened with by a reader whose own is `seed`. -/
def openingSeed (recorded seed : Int) : Int := if recorded ≠ 0 then recorded else seed

/-- Where there is a payload, opening takes the stream of the opening seed off it. -/
theorem decryptEncrypted_of_payload (K : Keystream) (key key' : SealKey) {v : Scalar κ}
    (h : v.payload ≠ []) :
    decryptEncrypted K key' (sealedScalar K key v) = decodeScalar v.encType v.classified
        (cover (K (openingSeed key.seed key'.seed) key'.password) 0
          (cover (K key.seed key.password) 0 v.payload)) := by
  have hnull : (sealedScalar K key v).encType ≠ .null := by
    intro hnull
    cases v with
    | null => exact h rfl
    | _ => cases hnull
  have hlen : ¬ (sealedScalar K key v).value.length = 0 := by
    rw [sealedScalar, length_cover]
    exact fun hzero => h (length_eq_zero_iff.mp hzero)
  have hval : (sealedScalar K key v).value ≠ [] :=
    fun hnil => hlen (length_eq_zero_iff.mpr hnil)
  rw [decryptEncrypted, if_neg hnull, if_neg (fun hboth => hlen hboth.1),
    if_neg (fun hboth => hlen hboth.1)]
  simp only [SealKey.xorAtSeed, secureXOR_of_ne_nil K hval]
  rfl

/-- Without a payload there is nothing a stream could change. -/
theorem decryptEncrypted_of_no_payload (K : Keystream) (key key' : SealKey) {value : Scalar κ}
    (h : value.payload = []) : decryptEncrypted K key' (sealedScalar K key value) = .ok value := by
  cases value with
  | integer value => exact absurd h (putUint64_ne_nil _)
  | float bits => exact absurd h (putUint64_ne_nil _)
  | boolean value => exact absurd h (formatBool_ne_nil _)
  | string value =>
    obtain rfl : value = [] := h
    rfl
  | bytes value classified =>
    obtain rfl : value = [] := h
    rfl
  | null => rfl

/-- A scalar opens to itself under its own stream. -/
theorem decryptEncrypted_own (K : Keystream) {key key' : SealKey} (value : Scalar κ)
    (hpw : key'.password = key.password) (hseed : openingSeed key.seed key'.seed = key.seed) :
    decryptEncrypted K key' (sealedScalar K key value) = .ok value := by
  by_cases h : value.payload = []
  · exact decryptEncrypted_of_no_payload K key key' h
  · rw [decryptEncrypted_of_payload K key key' h, hpw, hseed, cover_cover, decodeScalar_payload]

end Mutant.Mutil
