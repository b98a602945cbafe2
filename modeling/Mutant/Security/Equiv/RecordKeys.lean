import Mutant.Security.RecordKeys

/-!
# Facts about descriptors and key schedules

A descriptor is told by its bytes, a key and a nonce tell the material they were cut from, and a
schedule seals exactly when its checks pass.

* `SegmentAAD.encode_inj`: descriptors with the same bytes are the same;
* `RecordKeys.sealSegment_of_takes`, `RecordKeys.sealSegment_of_not_takes`: when a schedule seals.
-/

namespace Mutant.Security

open BigEndian

open List hiding Vector

variable {prk : Bytes}

variable {P : Primitives} {r : RecordKeys} {aad : SegmentAAD} {plaintext : Bytes}

/-! ### Descriptors -/

theorem uint64_lt (x : UInt64) : x.toNat < 256 ^ 8 := x.toNat_lt

theorem uint32_lt (x : UInt32) : x.toNat < 256 ^ 4 := x.toNat_lt

theorem put_uint64_inj {x y : UInt64}
    (h : BigEndian.put 8 x.toNat = BigEndian.put 8 y.toNat) : x = y :=
  UInt64.toNat_inj.mp (put_inj (uint64_lt x) (uint64_lt y) h)

theorem put_uint32_inj {x y : UInt32}
    (h : BigEndian.put 4 x.toNat = BigEndian.put 4 y.toNat) : x = y :=
  UInt32.toNat_inj.mp (put_inj (uint32_lt x) (uint32_lt y) h)

/-- `SegmentAADSize`. -/
theorem SegmentAAD.length_encode (a : SegmentAAD) : a.encode.length = 104 := by
  simp only [SegmentAAD.encode, length_append, Vector.length_toList]
  rfl

/-- A descriptor is told by its bytes: its fields have fixed widths. -/
theorem SegmentAAD.encode_inj {a b : SegmentAAD} (h : a.encode = b.encode) : a = b := by
  obtain ⟨h, hclass⟩ := append_inj' h (by simp only [Vector.length_toList])
  obtain ⟨h, hgen⟩ := append_inj' h (by simp only [length_put])
  obtain ⟨h, hlen⟩ := append_inj' h (by simp only [length_put])
  obtain ⟨h, hoff⟩ := append_inj' h (by simp only [length_put])
  obtain ⟨h, htot⟩ := append_inj' h (by simp only [length_put])
  obtain ⟨h, hidx⟩ := append_inj' h (by simp only [length_put])
  obtain ⟨h, hrec⟩ := append_inj' h (by simp only [Vector.length_toList])
  obtain ⟨-, hcase⟩ := append_inj' h (by simp only [Vector.length_toList])
  cases a
  cases b
  simp only [SegmentAAD.mk.injEq]
  exact ⟨Vector.toList_inj.mp hcase, Vector.toList_inj.mp hrec, put_uint64_inj hidx,
    put_uint64_inj htot, put_uint64_inj hoff, put_uint32_inj hlen,
    put_uint32_inj hgen, Vector.toList_inj.mp hclass⟩

/-! ### Material -/

namespace RecordKeys

theorem length_segmentMaterial (prk enc : Bytes) :
    (segmentMaterial P prk enc).1.length = keySize := by
  rw [segmentMaterial, length_take, Vector.length_toList]
  rfl

/-- The material is the key and then the nonce. -/
theorem segmentMaterial_append (prk enc : Bytes) :
    (segmentMaterial P prk enc).1 ++ (segmentMaterial P prk enc).2.toList =
      (material P prk enc).toList := by
  show (material P prk enc).toList.take keySize ++
      ((material P prk enc).drop keySize).toList = _
  rw [Vector.toList_drop, take_append_drop]

theorem material_eq_of_segmentMaterial_eq {prk' enc enc' : Bytes}
    (h : segmentMaterial P prk enc = segmentMaterial P prk' enc') :
    material P prk enc = material P prk' enc' := by
  rw [← Vector.toList_inj, ← segmentMaterial_append, ← segmentMaterial_append, h]

theorem segmentInfo_inj {a b : Bytes} (h : segmentInfo P a = segmentInfo P b) :
    P.sha256 a = P.sha256 b := by
  exact Vector.toList_inj.mp (Hex.encode_inj (append_cancel_left h))

/-! ### Sealing and opening -/

/-- The key of a segment as the cipher takes it. -/
def segmentKey (P : Primitives) (prk encoded : Bytes) : Vector UInt8 keySize :=
  ⟨(segmentMaterial P prk encoded).1.toArray, by rw [List.size_toArray, length_segmentMaterial]⟩

theorem keyOfBytes_segmentMaterial (prk enc : Bytes) :
    keyOfBytes (segmentMaterial P prk enc).1 = some (segmentKey P prk enc) :=
  dif_pos (length_segmentMaterial prk enc)

/-- The ciphertext of a segment. -/
def segmentCiphertext (P : Primitives) (prk : Bytes) (aad : SegmentAAD) (plaintext : Bytes) :
    Bytes :=
  P.aeadSeal (segmentKey P prk aad.encode) (segmentMaterial P prk aad.encode).2 plaintext aad.encode

/-- A schedule seals the segments it takes, and moves on to the next. -/
theorem sealSegment_of_takes (hprk : r.prk = some prk) (h : r.Takes aad plaintext) :
    r.sealSegment P aad plaintext = .ok ((segmentCiphertext P prk aad plaintext,
          P.sha256 (aad.encode ++ segmentCiphertext P prk aad plaintext)),
        { r with nextIndex := r.nextIndex + 1 }) := by
  obtain ⟨hsealable, hrng, hnext, hlen, hlim⟩ := h
  have hseal : sealWith P (segmentMaterial P prk aad.encode).1
      (segmentMaterial P prk aad.encode).2 plaintext aad.encode =
        .ok (segmentCiphertext P prk aad plaintext) := by
    unfold sealWith sealWithLimit
    rw [keyOfBytes_segmentMaterial]
    dsimp only
    rw [if_neg (Nat.not_lt.mpr hlim)]
    rfl
  unfold sealSegment
  rw [hprk]
  dsimp only
  rw [if_neg (by simp [hsealable]), if_neg (UInt64.not_le.mpr hrng), if_neg (not_not.mpr hnext),
    if_neg (not_not.mpr hlen), hseal]

/-- A schedule refuses the segments it does not take. -/
theorem sealSegment_of_not_takes (h : ¬ r.Takes aad plaintext) :
    ∃ e, r.sealSegment P aad plaintext = .error e := by
  fun_cases sealSegment P r aad plaintext <;> try exact ⟨_, rfl⟩
  next hsealable hrng hnext hlen _ _ _ _ hseal =>
  refine absurd ⟨by simpa using hsealable, UInt64.not_le.mp hrng, not_not.mp hnext,
    not_not.mp hlen, ?_⟩ h
  unfold sealWith sealWithLimit at hseal
  split at hseal
  · cases hseal
  · exact Nat.not_lt.mp fun hlong => by rw [if_pos hlong] at hseal; cases hseal

end RecordKeys

/-! ### Primitives to compute with -/

/-- Primitives that copy a part of what they are given. -/
def copying : Primitives where
  sha256 m := Vector.ofFn fun i => m.getD (24 + i) 0
  extract ikm _ := ikm
  expand prk info length := Vector.ofFn fun i : Fin length =>
    if i.val = 0 then prk.getD 0 0 else info.getD (33 + i) 0
  aeadSeal _ _ plaintext _ := plaintext ++ List.replicate aeadOverhead 0
  aeadOpen _ _ ciphertext _ := some (ciphertext.take (ciphertext.length - aeadOverhead))
  argon2id passphrase _ _ _ _ _ := passphrase

end Mutant.Security
