import Mutant.Lib.Result
import Mutant.Security.SecureRandom

/-!
# The stream entered at an offset

`SecureXORAt`, `XORAt` and `XOROneAt` each build a cipher, set its counter and discard the start of a
block.  All three are one function: the text under the bytes of the whole stream from the offset on.

* `secureXORAt_eq`, `xorAt_eq`, `xorOneAt_eq`: the three as that function;
* `secureXORAt_secureXORAt`: covering twice gives the text back.
-/

namespace Mutant.Security

open List BlockStream

variable {data whole : Bytes}

variable (P : Primitives) (block : ChaCha20Block)

/-- The bytes of the whole stream under a key and a nonce. -/
def streamByte (key : StreamKey) (nonce : StreamNonce) : Nat → UInt8 :=
  byteAt (newUnauthenticatedCipher block key nonce).block

/-- How many bytes a stream has. -/
def streamLength : Nat := streamBlockLimit * streamBlockSize

/-- Where an offset is in the stream: the block's number has 32 bits. -/
def streamPosition (offset : Nat) : Nat :=
  offset / streamBlockSize % 2 ^ 32 * streamBlockSize + offset % streamBlockSize

theorem streamPosition_of_lt {offset : Nat} (h : offset < streamLength) :
    streamPosition offset = offset := by
  have hblk : offset / streamBlockSize < 2 ^ 32 := Nat.div_lt_of_lt_mul (by rwa [Nat.mul_comm])
  rw [streamPosition, Nat.mod_eq_of_lt hblk, Nat.mul_comm]
  exact Nat.div_add_mod offset streamBlockSize

theorem streamPosition_zero : streamPosition 0 = 0 := rfl

/-! ### One cipher -/

section

variable (key : StreamKey) (nonce : StreamNonce)

theorem setBlock_new (counter : Nat) : setBlock (newUnauthenticatedCipher block key nonce) counter =
      .ok { block := (newUnauthenticatedCipher block key nonce).block, counter := counter } := by
  rw [setBlock]
  by_cases h : 0 < counter
  · rw [if_pos h]
    rfl
  · have hzero : counter = 0 := by omega
    rw [hzero]
    rfl

/-- A cipher that has room for what it is to discard discards it. -/
theorem discard_eq {c : Cipher streamBlockSize} {start skip : Nat}
    (hat : c.At streamBlockLimit start) (hroom : start + skip ≤ streamLength) :
    ∃ c', discard c skip = .ok c' ∧ c'.block = c.block ∧ c'.At streamBlockLimit (start + skip) := by
  rw [discard]
  by_cases hpos : 0 < skip
  · have hlen : (replicate skip (0 : UInt8)).length = skip := length_replicate
    obtain ⟨c', hc, hblk, hat⟩ := hat.xorKeyStream (by decide) (hlen ▸ hroom)
    rw [hlen] at hat
    refine ⟨c', ?_, hblk, hat⟩
    rw [if_pos hpos, hc]
    rfl
  · have hzero : skip = 0 := by omega
    exact ⟨c, if_neg hpos, rfl, by rwa [hzero]⟩

/-- What the three functions compute: the text under the stream from the offset's position on, and a
panic where the stream ends inside of it. -/
theorem xorAtOffset_eq (data : Bytes) (off : Int) : xorAtOffset block key nonce data off =
      if streamPosition off.toNat + data.length ≤ streamLength then
        .ok (cover (streamByte block key nonce) (streamPosition off.toNat) data)
      else .error .panic := by
  have hcounter : off.toNat / streamBlockSize % 2 ^ 32 + 1 ≤ streamBlockLimit :=
    Nat.mod_lt _ (by decide)
  have hskip : off.toNat % streamBlockSize < streamBlockSize := Nat.mod_lt _ (by decide)
  have hroom : streamPosition off.toNat ≤ streamLength := by
    have := Nat.mul_le_mul_right streamBlockSize hcounter
    rw [Nat.succ_mul] at this
    rw [streamPosition, streamLength]
    omega
  -- the cipher skips to the position inside its block
  obtain ⟨c, hc, hblk, hat⟩ := discard_eq
    (Cipher.at_counter (newUnauthenticatedCipher block key nonce).block hcounter) hroom
  have hrun : xorAtOffset block key nonce data off =
      Prod.fst <$> orPanic (c.xorKeyStream streamBlockLimit data) := by
    rw [xorAtOffset, setBlock_new]
    show discard _ _ >>= _ = _
    rw [hc]
    rfl
  rw [hrun]
  by_cases hfits : streamPosition off.toNat + data.length ≤ streamLength
  · obtain ⟨c', hc', -, -⟩ := hat.xorKeyStream (by decide) hfits
    rw [if_pos hfits, hc', hblk]
    rfl
  · rw [if_neg hfits, hat.xorKeyStream_none (by decide) (Nat.lt_of_not_le hfits)]
    rfl

end

/-! ### The functions -/

/-- The bytes of the stream a seed and a password give. -/
def seededByte (seed : Int64) (password : Bytes) : Nat → UInt8 :=
  let (key, nonce) := deriveStreamKeyAndNonce P seed password
  streamByte block key nonce

variable (seed : Int64) (password : Bytes)

theorem secureXORAt_eq (hdata : data ≠ []) (off : Nat) :
    secureXORAt P block data seed password off =
      if streamPosition off + data.length ≤ streamLength then
        .ok (cover (seededByte P block seed password) (streamPosition off) data)
      else .error .panic := by
  have hlen : ¬ data.length = 0 := fun h => hdata (length_eq_zero_iff.mp h)
  rw [secureXORAt, if_neg hlen]
  exact xorAtOffset_eq block _ _ data off

/-- The derived stream answers as the function that derives it. -/
theorem xorAt_eq (data : Bytes) (offset : Int) :
    (newXORStream P seed password).xorAt block data offset =
      secureXORAt P block data seed password offset := rfl

theorem xorOneAt_eq (b : UInt8) (offset : Int) :
    (newXORStream P seed password).xorOneAt block b offset =
      secureXOROneAt P block b seed password offset := by
  rw [XORStream.xorOneAt, secureXOROneAt, secureXORAt]
  by_cases h : offset < 0
  · rw [if_pos h, if_pos h]
    rfl
  · rw [if_neg h, if_neg h]
    rfl

/-- A whole text is covered as long as the stream lasts. -/
theorem secureXOR_eq (hdata : data ≠ []) : secureXOR P block data seed password =
      if data.length ≤ streamLength then .ok (cover (seededByte P block seed password) 0 data)
      else .error .panic := by
  have h := secureXORAt_eq P block seed password hdata 0
  rw [streamPosition_zero, Nat.zero_add] at h
  exact h

/-! ### A part of the whole -/

variable {seed password}

theorem secureXORAt_eq_ok_iff {covered : Bytes} {off : Int} :
    secureXORAt P block data seed password off = .ok covered ↔ data ≠ [] ∧ 0 ≤ off ∧
      streamPosition off.toNat + data.length ≤ streamLength ∧
      cover (seededByte P block seed password) (streamPosition off.toNat) data = covered := by
  rw [secureXORAt, Result.ite_error_eq_ok, Result.ite_error_eq_ok, length_eq_zero_iff, Int.not_lt]
  refine and_congr_right fun _ => and_congr_right fun _ => ?_
  dsimp only
  rw [xorAtOffset_eq]
  split_ifs with hfits <;> simp [hfits, seededByte]

/-- Covering one byte, and when it is refused. -/
theorem secureXOROneAt_eq_ok_iff {b c : UInt8} {off : Int} :
    secureXOROneAt P block b seed password off = .ok c ↔ 0 ≤ off ∧
      streamPosition off.toNat + 1 ≤ streamLength ∧
      b ^^^ seededByte P block seed password (streamPosition off.toNat) = c := by
  constructor
  · intro h
    obtain ⟨res, hres, hhead⟩ := Result.ok_of_bind h
    obtain ⟨-, hoff, hfits, rfl⟩ := (secureXORAt_eq_ok_iff P block).mp hres
    exact ⟨hoff, hfits, Except.ok.inj hhead⟩
  · rintro ⟨hoff, hfits, rfl⟩
    rw [secureXOROneAt, (secureXORAt_eq_ok_iff P block).mpr ⟨cons_ne_nil b [], hoff, hfits, rfl⟩]
    rfl

theorem length_secureXORAt {cov : Bytes} {off : Nat}
    (h : secureXORAt P block data seed password off = .ok cov) : cov.length = data.length := by
  obtain ⟨-, -, -, rfl⟩ := (secureXORAt_eq_ok_iff P block).mp h
  exact length_cover _ _ _

section

variable (h : secureXOR P block data seed password = .ok whole)

include h

/-- A part of a text, covered at its offset, is that part of the text covered whole. -/
theorem secureXORAt_slice {k n : Nat} (hn : 0 < n) (hk : k < data.length) :
    secureXORAt P block ((data.drop k).take n) seed password k = .ok ((whole.drop k).take n) := by
  obtain ⟨-, -, hfits, rfl⟩ := (secureXORAt_eq_ok_iff P block).mp h
  rw [Int.toNat_zero, streamPosition_zero] at hfits ⊢
  have hpos : streamPosition k = k := streamPosition_of_lt (by omega)
  have hlen : ((data.drop k).take n).length = min n (data.length - k) := by
    rw [length_take, length_drop]
  rw [secureXORAt_eq_ok_iff, Int.toNat_natCast, hpos, hlen, drop_cover, take_cover, Nat.zero_add]
  exact ⟨ne_nil_of_length_pos (by omega), Int.natCast_nonneg k, by omega, rfl⟩

/-- All of it from the offset on. -/
theorem secureXORAt_drop {k : Nat} (hk : k < data.length) :
    secureXORAt P block (data.drop k) seed password k = .ok (whole.drop k) := by
  have hlen := length_secureXORAt P block h
  have hslice := secureXORAt_slice P block h (n := data.length) (by omega) hk
  rwa [take_of_length_le (by rw [length_drop]; omega),
    take_of_length_le (by rw [length_drop]; omega)] at hslice

/-- So is a single byte. -/
theorem secureXOROneAt_getElem {k : Nat} {b : UInt8} (hb : data[k]? = some b) :
    ∃ c, whole[k]? = some c ∧ secureXOROneAt P block b seed password k = .ok c := by
  obtain ⟨hk, -⟩ := List.getElem?_eq_some_iff.mp hb
  obtain ⟨-, -, hfits, rfl⟩ := (secureXORAt_eq_ok_iff P block).mp h
  rw [Int.toNat_zero, streamPosition_zero] at hfits ⊢
  have hpos : streamPosition k = k := streamPosition_of_lt (by omega)
  refine ⟨b ^^^ seededByte P block seed password k, ?_, ?_⟩
  · rw [getElem?_cover, hb, Nat.zero_add]
    rfl
  · rw [secureXOROneAt_eq_ok_iff, Int.toNat_natCast, hpos]
    exact ⟨Int.natCast_nonneg k, by omega, rfl⟩

end

/-- Covering twice at one offset gives the text back. -/
theorem secureXORAt_secureXORAt {cov : Bytes} {off : Int}
    (h : secureXORAt P block data seed password off = .ok cov) :
    secureXORAt P block cov seed password off = .ok data := by
  obtain ⟨hdata, hoff, hfits, rfl⟩ := (secureXORAt_eq_ok_iff P block).mp h
  rw [secureXORAt_eq_ok_iff, ← length_pos_iff, length_cover, length_pos_iff, cover_cover]
  exact ⟨hdata, hoff, hfits, rfl⟩

theorem secureXOROneAt_secureXOROneAt {b c : UInt8} {off : Int}
    (h : secureXOROneAt P block b seed password off = .ok c) :
    secureXOROneAt P block c seed password off = .ok b := by
  obtain ⟨hoff, hfits, rfl⟩ := (secureXOROneAt_eq_ok_iff P block).mp h
  rw [secureXOROneAt_eq_ok_iff, UInt8.xor_assoc, UInt8.xor_self, UInt8.xor_zero]
  exact ⟨hoff, hfits, rfl⟩

end Mutant.Security
