import Mutant.Security.Equiv.GrantRuns
import Mutant.Security.Equiv.RecordFile

/-!
# A grant opens what was granted

A grant that was issued, sealed, written, read and opened again is the grant that was issued: its
runs spell its indices, and its text is never too long.  Each slot holds the material of the segment
of its index, so it opens that segment and no other.

* `RecordGrant.Issued.parseGrantFile_eq`: what is written of a grant is parsed as the grant's file.
* `grant_opensExactly`: from issue to opening, a grant opens the segments it was issued for.
-/

namespace Mutant.Security

open List hiding Vector

variable {run : GrantRun} {segments : UInt64} {runs : List GrantRun} {n k : Nat}

variable {P : Primitives} {indices : List UInt64}

/-! ### Sealing, writing, reading and opening -/

/-- What holds of a grant that was issued. -/
structure RecordGrant.Issued (g : RecordGrant) (material : Bytes) : Prop where
  material_eq : g.material = some material
  length_material : material.length = g.indices.length * grantMaterialSize
  ascending : g.indices.Pairwise fun a b => a.toNat < b.toNat
  range : ∀ i ∈ g.indices, i < g.total
  total_pos : 0 < g.total
  total_le : g.total ≤ maxRecordSegments
  generation : 1 ≤ g.generation

theorem hexOfLength_encode (v : Vector UInt8 n) : hexOfLength (Hex.encode v.toList) n = some v := by
  unfold hexOfLength
  rw [Hex.decode_encode]
  dsimp only
  rw [dif_pos Vector.length_toList]
  rfl

theorem keyOfBytes_toList (key : Vector UInt8 keySize) : keyOfBytes key.toList = some key := by
  unfold keyOfBytes
  rw [dif_pos Vector.length_toList]
  rfl

/-- What was sealed within a limit opens again. -/
theorem openWithLimit_seal (haead : P.AeadCorrect) {bs : Bytes} {key : Vector UInt8 keySize}
    (hkey : keyOfBytes bs = some key) (nonce : XNonce) (aad : Bytes) {plaintext : Bytes}
    {authErr : RecordError} {lim : Nat} {what : String} (hlim : plaintext.length ≤ lim) :
    openWithLimit P bs nonce (P.aeadSeal key nonce plaintext aad) aad authErr lim what =
      .ok plaintext := by
  have hlen := haead.length_seal key nonce plaintext aad
  unfold openWithLimit
  rw [hkey]
  dsimp only
  rw [if_neg (by omega), if_neg (by omega), haead.open_seal]

/-- The key a passphrase wraps grants under. -/
def wrapKeyOf (P : Primitives) (passphrase : Bytes) (salt : Vector UInt8 grantSaltSize) :
    Vector UInt8 keySize :=
  P.expand (P.extract (P.argon2id passphrase salt.toList 3 262144 4 32) [])
    (text "mutant-grant-wrap-v1") keySize

theorem grantWrapKey_eq {passphrase : Bytes} (hpass : passphrase ≠ [])
    (salt : Vector UInt8 grantSaltSize) :
    grantWrapKey P passphrase salt.toList 1 = .ok (wrapKeyOf P passphrase salt) := by
  unfold grantWrapKey
  rw [show grantFileProfile 1 = some ⟨text "argon2id", 3, 262144, 4, 32⟩ from rfl]
  dsimp only
  rw [if_neg (not_not.mpr Vector.length_toList), if_neg (by simpa using hpass)]
  rfl

/-- Hexadecimal digits are written in JSON as they are. -/
theorem plain_encode (bs : Bytes) : (Hex.encode bs).all Json.IsPlain = true := by
  have hdig : ∀ n : Fin 16, Json.IsPlain (Hex.digit n.val) = true := by decide
  rw [all_eq_true]
  intro b hb
  obtain ⟨byte, -, hb⟩ := mem_flatMap.mp hb
  have hhigh : byte.toNat / 16 < 16 := by
    have := byte.toNat_lt
    omega
  have hlow : byte.toNat % 16 < 16 := Nat.mod_lt _ (by decide)
  rcases mem_cons.mp hb with rfl | hb
  · exact hdig ⟨_, hhigh⟩
  · obtain rfl := mem_singleton.mp hb
    exact hdig ⟨_, hlow⟩

namespace RecordGrant

variable {g : RecordGrant} {material passphrase : Bytes}

/-- The file of a grant before its material is sealed into it. -/
def unsealed (g : RecordGrant) (disclosure : Vector UInt8 disclosureUIDSize)
    (salt : Vector UInt8 grantSaltSize) : GrantFile :=
  { format := text "mutant-disclosure-grant", version := 1,
    disclosureUID := Hex.encode disclosure.toList, caseUID := Hex.encode g.caseUID.toList,
    recordUID := Hex.encode g.recordUID.toList, sealedUnderGeneration := g.generation,
    segments := g.total, granted := UInt64.ofNat g.indices.length,
    runs := some (grantRunsOf g.indices), descriptorsRoot := Hex.encode g.descriptorsRoot.toList,
    kdf := ⟨text "argon2id", Hex.encode salt.toList, 3, 262144, 4, 32⟩, nonce := [], blob := [] }

/-- The file of a grant. -/
def sealedFile (P : Primitives) (g : RecordGrant) (material : Bytes)
    (disclosure : Vector UInt8 disclosureUIDSize) (passphrase : Bytes)
    (salt : Vector UInt8 grantSaltSize) (nonce : XNonce) : GrantFile :=
  { g.unsealed disclosure salt with
    nonce := Hex.encode nonce.toList
    blob := Hex.encode (P.aeadSeal (wrapKeyOf P passphrase salt) nonce material
      (g.unsealed disclosure salt).canonical) }

/-- The texts of the file are in hexadecimal, or fixed. -/
theorem sealedFile_texts_plain (disclosure : Vector UInt8 disclosureUIDSize)
    (salt : Vector UInt8 grantSaltSize) (nonce : XNonce) :
    ∀ t ∈ (sealedFile P g material disclosure passphrase salt nonce).texts,
      t.all Json.IsPlain = true := by
  have hformat : (text "mutant-disclosure-grant").all Json.IsPlain = true := by decide +kernel
  have halgorithm : (text "argon2id").all Json.IsPlain = true := by decide +kernel
  simp only [GrantFile.texts, forall_mem_cons]
  exact ⟨hformat, plain_encode _, plain_encode _, plain_encode _, plain_encode _, halgorithm,
    plain_encode _, plain_encode _, plain_encode _, fun _ h => absurd h not_mem_nil⟩

namespace Issued

variable (h : g.Issued material)

include h

theorem indices_length_le : g.indices.length ≤ g.total.toNat :=
  length_le_of_ascending h.ascending h.range

theorem total_toNat_le : g.total.toNat ≤ 2 ^ 20 := UInt64.le_iff_toNat_le.mp h.total_le

theorem granted_toNat : (UInt64.ofNat g.indices.length).toNat = g.indices.length := by
  have := h.indices_length_le
  have := h.total_toNat_le
  exact Nat.mod_eq_of_lt (by omega)

theorem runsIn : RunsIn g.total (grantRunsOf g.indices) := (spelled h.ascending h.range).1

theorem spell : (grantRunsOf g.indices).flatMap GrantFile.runIndices = g.indices :=
  (spelled h.ascending h.range).2

theorem length_material_le : material.length ≤ maxGrantMaterial := by
  have := h.indices_length_le
  have := h.total_toNat_le
  have hsize : grantMaterialSize = 56 := rfl
  have hmax : maxGrantMaterial = 56 * 2 ^ 20 := rfl
  rw [h.length_material, hsize]
  omega

variable (disclosure : Vector UInt8 disclosureUIDSize) (salt : Vector UInt8 grantSaltSize)
  (nonce : XNonce)

/-- A grant that was issued is sealed. -/
theorem sealGrant_eq (hpass : passphrase ≠ []) : sealGrant P g disclosure passphrase salt nonce =
      .ok (sealedFile P g material disclosure passphrase salt nonce) := by
  unfold sealGrant
  rw [h.material_eq, show grantFileProfile 1 = some ⟨text "argon2id", 3, 262144, 4, 32⟩ from rfl]
  dsimp only
  rw [grantWrapKey_eq hpass]
  dsimp only
  unfold sealWithLimit
  rw [keyOfBytes_toList]
  dsimp only
  rw [if_neg (Nat.not_lt.mpr h.length_material_le)]
  rfl

/-- The sealed material opens again. -/
theorem openGrantFile_eq (haead : P.AeadCorrect) (hpass : passphrase ≠ []) :
    openGrantFile P (sealedFile P g material disclosure passphrase salt nonce) passphrase =
      .ok g := by
  have hshell : (sealedFile P g material disclosure passphrase salt nonce).shell =
      .ok { g with material := none } := by
    have hshell := shell_eq (f := sealedFile P g material disclosure passphrase salt nonce)
      (hexOfLength_encode g.caseUID) (hexOfLength_encode g.recordUID)
      (hexOfLength_encode g.descriptorsRoot) rfl h.runsIn
      (by rw [h.spell]; exact h.granted_toNat)
    rwa [h.spell] at hshell
  set f := sealedFile P g material disclosure passphrase salt nonce with hf
  have hsalt : f.kdf.salt = Hex.encode salt.toList := rfl
  have hver : f.version = 1 := rfl
  have hnonce : f.nonce = Hex.encode nonce.toList := rfl
  have hblob : f.blob = Hex.encode (P.aeadSeal (wrapKeyOf P passphrase salt) nonce material
    f.canonical) := rfl
  have hsize : UInt64.ofNat material.length = f.granted * UInt64.ofNat grantMaterialSize := by
    rw [h.length_material, UInt64.ofNat_mul]
    rfl
  -- salt, key, nonce and blob are what the seal wrote, so the box opens
  unfold openGrantFile
  rw [hsalt, hexOfLength_encode]
  dsimp only
  rw [hver, grantWrapKey_eq hpass]
  rw [hnonce, hblob, hexOfLength_encode, Hex.decode_encode]
  dsimp only
  rw [openWithLimit_seal haead (keyOfBytes_toList _) _ _ h.length_material_le]
  dsimp only
  rw [if_neg (not_not.mpr hsize), hshell]
  rw [← h.material_eq]

/-- The file passes the checks of the parser. -/
theorem validate_eq (haead : P.AeadCorrect) :
    (sealedFile P g material disclosure passphrase salt nonce).validate = .ok () := by
  have hhex {n : Nat} (v : Vector UInt8 n) : hexOfLength (Hex.encode v.toList) n ≠ none := by
    rw [hexOfLength_encode]
    exact Option.some_ne_none v
  refine GrantFile.validate_ok_iff.mpr ⟨⟨rfl, ⟨_, rfl, rfl, rfl, rfl, rfl, rfl⟩, hhex disclosure,
    hhex g.caseUID, hhex g.recordUID, h.generation, h.total_pos, h.total_le, hhex g.descriptorsRoot,
    hhex salt, hhex nonce⟩, ?_, ⟨_, rfl, ?_⟩, ?_⟩
  · show UInt64.ofNat g.indices.length ≤ g.total
    rw [UInt64.le_iff_toNat_le, h.granted_toNat]
    exact h.indices_length_le
  · show checkRuns g.total 0 none 0 (grantRunsOf g.indices) = _
    rw [checkRuns_eq h.runsIn 0 none 0 (by simp), h.spell, UInt64.zero_add]
    rfl
  · show UInt64.ofNat (Hex.encode _).length = _
    rw [Hex.length_encode, haead.length_seal, h.length_material, UInt64.ofNat_mul, UInt64.ofNat_add,
      UInt64.ofNat_mul]
    rfl

/-- The text of a grant file is never too long to be read: there is a gap after each run. -/
theorem length_marshal_le (haead : P.AeadCorrect) :
    (marshalGrantFile (sealedFile P g material disclosure passphrase salt nonce)).length ≤
      maxGrantFile := by
  have htot := h.total_toNat_le
  have hixs := h.indices_length_le
  have hcnt := h.runsIn.length_le 0 (fun _ _ => Nat.zero_le _) (Nat.zero_le _)
  refine Nat.le_trans (length_marshalGrantFile_le
    (sealedFile_texts_plain disclosure salt nonce) rfl) ?_
  have hformat : (text "mutant-disclosure-grant").length = 23 := by decide +kernel
  have halgorithm : (text "argon2id").length = 8 := by decide +kernel
  have hmax : maxGrantFile = 2 * (56 * 2 ^ 20 + 16) + 48 * 2 ^ 20 + 2 ^ 16 := rfl
  dsimp only [GrantFile.texts, sealedFile, unsealed]
  simp only [map_cons, map_nil, sum_cons, sum_nil, Hex.length_encode, Vector.length_toList, hformat,
    halgorithm, haead.length_seal, h.length_material]
  simp only [disclosureUIDSize, caseUIDSize, recordUIDSize, digestSize, nonceSize, grantSaltSize,
    aeadOverhead, show grantMaterialSize = 56 from rfl]
  omega

/-- What is written of a grant is parsed as the grant's file. -/
theorem parseGrantFile_eq (haead : P.AeadCorrect) :
    parseGrantFile (marshalGrantFile (sealedFile P g material disclosure passphrase salt nonce)) =
      .ok (sealedFile P g material disclosure passphrase salt nonce) := by
  have hplain : ∀ t ∈ (sealedFile P g material disclosure passphrase salt nonce).texts,
      t.all Json.IsPlain = true := sealedFile_texts_plain disclosure salt nonce
  unfold parseGrantFile
  rw [if_neg (Nat.not_lt.mpr (h.length_marshal_le disclosure salt nonce haead)),
    decodeGrantFile_marshalGrantFile fun t ht => Json.valid_of_plain (hplain t ht)]
  dsimp only
  rw [h.validate_eq disclosure salt nonce haead]

end Issued

end RecordGrant

/-! ### Slots -/

/-- The block at a position among blocks of one size. -/
theorem flatMap_slot {α : Type} {φ : α → Bytes} (hlen : ∀ a, (φ a).length = n)
    {l : List α} {a : α} (h : l[k]? = some a) : ((l.flatMap φ).drop (k * n)).take n = φ a := by
  induction l generalizing k with
  | nil => cases h
  | cons x l ih =>
    rw [flatMap_cons]
    cases k with
    | zero =>
      obtain rfl := Option.some.inj h
      rw [Nat.zero_mul, drop_zero, ← hlen x, take_left]
    | succ k =>
      rw [Nat.succ_mul, Nat.add_comm, ← drop_drop, ← hlen x, drop_left]
      rw [hlen x]
      exact ih h

/-- A nonce after a key is read back. -/
theorem nonce_of_append {key : Bytes} (hkey : key.length = keySize) (nonce : XNonce) :
    (Vector.ofFn fun k : Fin nonceSize => (key ++ nonce.toList).getD (keySize + k) 0) = nonce := by
  refine Vector.ext fun k hk => ?_
  rw [Vector.getElem_ofFn, getD_append_right _ _ _ _ (by omega), hkey,
    Nat.add_sub_cancel_left, getD_eq_getElem _ _ (by rwa [Vector.length_toList]),
    Vector.getElem_toList]

theorem grantSlot_eq (prk : Bytes) (d : SegmentAAD) :
    grantSlot P prk d = (RecordKeys.segmentMaterial P prk d.encode).1 ++
      Vector.toList (RecordKeys.segmentMaterial P prk d.encode).2 :=
  rfl

theorem length_grantSlot (prk : Bytes) (d : SegmentAAD) :
    (grantSlot P prk d).length = grantMaterialSize := by
  have hkey := RecordKeys.length_segmentMaterial (P := P) prk d.encode
  rw [grantSlot_eq]
  generalize RecordKeys.segmentMaterial P prk d.encode = material at hkey
  rw [length_append, hkey, Vector.length_toList]
  rfl

/-! ### Records -/

/-- A record that has been sealed: its key schedule, and for each segment its descriptor and its
plaintext. -/
structure SealedRecord where
  keys : RecordKeys
  prk : Bytes
  describe : UInt64 → SegmentAAD
  plaintext : UInt64 → Bytes
  prk_eq : keys.prk = some prk
  sealed : (keys.sealable && !keys.sealComplete) = false
  total_pos : 0 < keys.total
  total_le : keys.total ≤ maxRecordSegments
  generation : 1 ≤ keys.generation
  describes : ∀ i < keys.total, (describe i).index = i ∧ (describe i).caseUID = keys.caseUID ∧
    (describe i).recordUID = keys.uid ∧ (describe i).generation = keys.generation ∧
    (describe i).total = keys.total
  length_plaintext : ∀ i < keys.total,
    (plaintext i).length = (describe i).length.toNat ∧ (plaintext i).length ≤ maxSegmentPlaintext

namespace SealedRecord

variable {r : SealedRecord}

/-- What is stored for a segment. -/
def ciphertext (P : Primitives) (r : SealedRecord) (i : UInt64) : Bytes :=
  RecordKeys.segmentCiphertext P r.prk (r.describe i) (r.plaintext i)

/-- The grant of some of its segments. -/
def grant (P : Primitives) (r : SealedRecord) (indices : List UInt64) : RecordGrant :=
  { caseUID := r.keys.caseUID, recordUID := r.keys.uid, generation := r.keys.generation,
    total := r.keys.total, indices := indices,
    material := some ((indices.map r.describe).flatMap (grantSlot P r.prk)),
    descriptorsRoot := grantDescriptorsRoot P (indices.map r.describe) }

/-- What is stored for a segment opens with the segment's own material. -/
theorem openWith_ciphertext (haead : P.AeadCorrect) {i : UInt64} (hi : i < r.keys.total) :
    openWith P (RecordKeys.segmentMaterial P r.prk (r.describe i).encode).1
      (RecordKeys.segmentMaterial P r.prk (r.describe i).encode).2 (r.ciphertext P i)
      (r.describe i).encode errSegmentAuth = .ok (r.plaintext i) :=
  openWithLimit_seal haead (RecordKeys.keyOfBytes_segmentMaterial r.prk _) _ _
    (r.length_plaintext i hi).2

/-- The descriptors of ascending indices pass the checks of an issue. -/
theorem checkGranted_eq (hrng : ∀ i ∈ indices, i < r.keys.total) (pre : Option UInt64)
    (hasc : indices.Pairwise fun a b => a.toNat < b.toNat)
    (hbef : ∀ b ∈ pre, ∀ i ∈ indices, b.toNat < i.toNat) :
    checkGranted r.keys pre (indices.map r.describe) = .ok () := by
  induction indices generalizing pre with
  | nil => rfl
  | cons i indices ih =>
    have hi := hrng i mem_cons_self
    obtain ⟨hidx, hcase, hrec, hgen, htot⟩ := r.describes i hi
    obtain ⟨hfst, hrest⟩ := pairwise_cons.mp hasc
    -- no index comes twice
    have hnew : pre ≠ some i := by
      rintro rfl
      exact Nat.lt_irrefl _ (hbef i rfl i mem_cons_self)
    have hnext := ih (fun j hj => hrng j (mem_cons_of_mem i hj)) (some i) hrest (by
      intro b hb j hj
      obtain rfl := Option.mem_some_iff.mp hb
      exact hfst j hj)
    rw [map_cons, checkGranted, if_neg (by simp [hcase, hrec, hgen, htot]),
      hidx, if_neg (UInt64.not_le.mpr hi), if_neg hnew, hnext]

theorem length_flatMap_slots (prk : Bytes) (descs : List SegmentAAD) :
    (descs.flatMap (grantSlot P prk)).length = descs.length * grantMaterialSize := by
  induction descs with
  | nil => simp
  | cons d descs ih =>
    rw [flatMap_cons, length_append, length_grantSlot, length_cons, Nat.add_mul]
    omega

theorem issued_grant (hasc : indices.Pairwise fun a b => a.toNat < b.toNat)
    (hrng : ∀ i ∈ indices, i < r.keys.total) :
    (r.grant P indices).Issued ((indices.map r.describe).flatMap (grantSlot P r.prk)) :=
  ⟨rfl, by rw [length_flatMap_slots, length_map]; rfl, hasc, hrng, r.total_pos, r.total_le,
    r.generation⟩

/-- Any ascending list of a record's segments is granted. -/
theorem issueGrant_eq (hasc : indices.Pairwise fun a b => a.toNat < b.toNat)
    (hrng : ∀ i ∈ indices, i < r.keys.total) :
    r.keys.issueGrant P (indices.map r.describe) = .ok (r.grant P indices) := by
  have hixs : (indices.map r.describe).map (·.index) = indices := by
    rw [map_map]
    exact (map_congr_left fun i hi => (r.describes i (hrng i hi)).1).trans
      (map_id indices)
  -- ascending descriptors are sorted already
  have hsort : (indices.map r.describe).mergeSort (fun a b => a.index ≤ b.index) =
      indices.map r.describe := by
    refine mergeSort_of_pairwise (pairwise_map.mpr ?_)
    refine hasc.imp_of_mem ?_
    intro a b ha hb hlt
    rw [(r.describes a (hrng a ha)).1, (r.describes b (hrng b hb)).1]
    simp only [decide_eq_true_eq]
    exact Nat.le_of_lt hlt
  have hcnt : indices.length ≤ r.keys.total.toNat :=
    (issued_grant (P := P) hasc hrng).indices_length_le
  unfold RecordKeys.issueGrant
  rw [r.prk_eq]
  dsimp only
  rw [if_neg (by simp [r.sealed]), if_neg (by rw [length_map]; omega), hsort,
    checkGranted_eq hrng none hasc (by simp)]
  rw [hixs]
  rfl

/-- A granted segment opens. -/
theorem openSegment_granted (haead : P.AeadCorrect)
    (hasc : indices.Pairwise fun a b => a.toNat < b.toNat)
    (hrng : ∀ i ∈ indices, i < r.keys.total) {i : UInt64} (hi : i ∈ indices) :
    (r.grant P indices).openSegment P (r.describe i) (r.ciphertext P i) = .ok (r.plaintext i) := by
  obtain ⟨hidx, hcase, hrec, hgen, htot⟩ := r.describes i (hrng i hi)
  obtain ⟨k, hk⟩ := mem_iff_getElem?.mp hi
  have hsame : (r.grant P indices).sameRecord (r.describe i) = true := by
    simp [RecordGrant.sameRecord, grant, hcase, hrec, hgen, htot]
  have hslot : (r.grant P indices).slot (r.describe i).index = some k := by
    rw [hidx]
    exact (RecordGrant.slot_eq_some_iff hasc).mpr hk
  -- the slot at that position is the segment's
  have hbts : (((indices.map r.describe).flatMap (grantSlot P r.prk)).drop
      (k * grantMaterialSize)).take grantMaterialSize = grantSlot P r.prk (r.describe i) := by
    refine flatMap_slot (length_grantSlot r.prk) ?_
    rw [getElem?_map, hk]
    rfl
  have hkey := RecordKeys.length_segmentMaterial (P := P) r.prk (r.describe i).encode
  have htake : (grantSlot P r.prk (r.describe i)).take keySize =
      (RecordKeys.segmentMaterial P r.prk (r.describe i).encode).1 := by
    rw [← hkey]
    exact take_left
  unfold RecordGrant.openSegment
  rw [show (r.grant P indices).material =
    some ((indices.map r.describe).flatMap (grantSlot P r.prk)) from rfl]
  dsimp only
  rw [hsame, if_neg (by decide), hslot]
  dsimp only
  rw [hbts, htake, grantSlot_eq, nonce_of_append hkey, openWith_ciphertext haead (hrng i hi)]
  dsimp only
  rw [if_neg (not_not.mpr (r.length_plaintext i (hrng i hi)).1)]

/-- A segment that was not granted does not open. -/
theorem openSegment_not_granted (hasc : indices.Pairwise fun a b => a.toNat < b.toNat)
    {aad : SegmentAAD} (haad : aad.index ∉ indices) (stored : Bytes) :
    ∃ e, (r.grant P indices).openSegment P aad stored = .error e := by
  have hslot : (r.grant P indices).slot aad.index = none := by
    by_contra hsome
    obtain ⟨k, hk⟩ := Option.ne_none_iff_exists'.mp hsome
    exact haad (mem_of_getElem? ((RecordGrant.slot_eq_some_iff hasc).mp hk))
  unfold RecordGrant.openSegment
  rw [show (r.grant P indices).material =
    some ((indices.map r.describe).flatMap (grantSlot P r.prk)) from rfl]
  dsimp only
  rw [hslot]
  split <;> exact ⟨_, rfl⟩

end SealedRecord

/-! ### Presented records -/

/-- What a presented record says of the granted segments. -/
def presented (describe : UInt64 → Except FileError SegmentAAD) (indices : List UInt64) :
    List SegmentAAD :=
  indices.filterMap fun i => (describe i).toOption

/-- The descriptors that are checked are those the record presents. -/
theorem describeGranted_cases (g : RecordGrant) (describe : UInt64 → Except FileError SegmentAAD)
    (indices : List UInt64) : (∃ e, g.describeGranted describe indices = .error e) ∨
      g.describeGranted describe indices = .ok (presented describe indices) ∧
        (presented describe indices).map .ok = indices.map describe := by
  induction indices with
  | nil => exact .inr ⟨rfl, rfl⟩
  | cons i indices ih =>
    rw [RecordGrant.describeGranted]
    cases hd : describe i with
    | error e => exact .inl ⟨_, rfl⟩
    | ok d =>
      dsimp only
      split_ifs
      · exact .inl ⟨_, rfl⟩
      · rcases ih with ⟨e, he⟩ | ⟨hok, hmap⟩
        · rw [he]
          exact .inl ⟨e, rfl⟩
        · have hcons : presented describe (i :: indices) = d :: presented describe indices := by
            rw [presented, filterMap_cons, hd]
            rfl
          rw [hok, hcons, map_cons, map_cons, hmap, hd]
          exact .inr ⟨rfl, rfl⟩

theorem grantDescriptorsInput_inj {xs ys : List SegmentAAD}
    (h : grantDescriptorsInput xs = grantDescriptorsInput ys) : xs = ys := by
  unfold grantDescriptorsInput at h
  simp only [append_assoc, append_cancel_left_eq] at h
  exact flatMap_inj (by decide) SegmentAAD.length_encode (fun _ _ => SegmentAAD.encode_inj)
    (append_inj h (by simp only [BigEndian.length_put])).2

/-- A record that presents another descriptor for a granted segment is refused. -/
theorem SealedRecord.matchesRecord_refuses {r : SealedRecord}
    {describe : UInt64 → Except FileError SegmentAAD}
    (hfree : P.CollisionFree (· ∈ [grantDescriptorsInput (indices.map r.describe),
      grantDescriptorsInput (presented describe indices)]))
    (hdiffers : ∃ i ∈ indices, describe i ≠ .ok (r.describe i)) :
    ∃ e, (r.grant P indices).matchesRecord P describe = .error e := by
  unfold RecordGrant.matchesRecord
  rcases describeGranted_cases (r.grant P indices) describe indices with ⟨e, he⟩ | ⟨hok, hmap⟩
  · rw [show (r.grant P indices).indices = indices from rfl, he]
    exact ⟨e, rfl⟩
  · rw [show (r.grant P indices).indices = indices from rfl, hok]
    dsimp only
    split_ifs with hroot
    · exact ⟨_, rfl⟩
    · -- equal roots would mean equal descriptors
      have hinput := hfree _ _ (by simp) (by simp) (not_not.mp hroot)
      rw [grantDescriptorsInput_inj hinput, map_map] at hmap
      obtain ⟨i, hi, hne⟩ := hdiffers
      exact absurd (map_inj_left.mp hmap i hi).symm hne

/-! ### From issue to opening -/

/-- A grant of an ascending list of a record's segments, issued, sealed under a passphrase, written,
read back and opened with it, opens each of those segments and refuses every other index; and a
record that presents another descriptor for one of them does not match it. -/
theorem grant_opensExactly (P : Primitives) (haead : P.AeadCorrect) (r : SealedRecord)
    (indices : List UInt64) (hasc : indices.Pairwise (· < ·))
    (hrange : ∀ i ∈ indices, i < r.keys.total) (disclosure : Vector UInt8 disclosureUIDSize)
    (passphrase : Bytes) (hpass : passphrase ≠ []) (salt : Vector UInt8 grantSaltSize)
    (nonce : XNonce) :
    ∃ issued file read opened, r.keys.issueGrant P (indices.map r.describe) = .ok issued ∧
      sealGrant P issued disclosure passphrase salt nonce = .ok file ∧
      parseGrantFile (marshalGrantFile file) = .ok read ∧
      openGrantFile P read passphrase = .ok opened ∧
      (∀ i ∈ indices,
        opened.openSegment P (r.describe i) (r.ciphertext P i) = .ok (r.plaintext i)) ∧
      (∀ aad stored, aad.index ∉ indices → ∃ e, opened.openSegment P aad stored = .error e) ∧
      ∀ describe, P.CollisionFree (· ∈ [grantDescriptorsInput (indices.map r.describe),
          grantDescriptorsInput (presented describe indices)]) →
        (∃ i ∈ indices, describe i ≠ .ok (r.describe i)) →
        ∃ e, opened.matchesRecord P describe = .error e := by
  have hasc' : indices.Pairwise fun a b => a.toNat < b.toNat :=
    hasc.imp fun hlt => UInt64.lt_iff_toNat_lt.mp hlt
  have hissued := SealedRecord.issued_grant (P := P) hasc' hrange
  exact ⟨_, _, _, r.grant P indices, SealedRecord.issueGrant_eq hasc' hrange,
    hissued.sealGrant_eq disclosure salt nonce hpass,
    hissued.parseGrantFile_eq disclosure salt nonce haead,
    hissued.openGrantFile_eq disclosure salt nonce haead hpass,
    fun i hi => SealedRecord.openSegment_granted haead hasc' hrange hi,
    fun aad stored haad => SealedRecord.openSegment_not_granted hasc' haad stored,
    fun describe hfree hdiffers => SealedRecord.matchesRecord_refuses hfree hdiffers⟩

/-- Primitives whose digest is the end of the message. -/
def ending : Primitives :=
  { copying with sha256 := fun m => Vector.ofFn fun i => m.getD (m.length - 1 - i) 0 }

theorem ending_aeadCorrect : ending.AeadCorrect where
  length_seal := by simp [ending, copying]
  open_seal := by simp [ending, copying]

/-- A record of three segments of one byte each. -/
def threeSegments : SealedRecord where
  keys := { caseUID := Vector.replicate _ 1, uid := Vector.replicate _ 2, generation := 1,
            total := 3, prk := some [9], sealable := false, nextIndex := 0 }
  prk := [9]
  describe i := { caseUID := Vector.replicate _ 1, recordUID := Vector.replicate _ 2, index := i,
                  total := 3, offset := i, length := 1, generation := 1,
                  classTag := Vector.replicate _ 3 }
  plaintext i := [UInt8.ofNat i.toNat]
  prk_eq := rfl
  sealed := rfl
  total_pos := by decide
  total_le := by decide
  generation := by decide
  describes i _ := ⟨rfl, rfl, rfl, rfl, rfl⟩
  length_plaintext _ _ := ⟨rfl, (by decide : 1 ≤ maxSegmentPlaintext)⟩

/-- What the record presents when the last segment has been given another class. -/
def reclassed (i : UInt64) : Except FileError SegmentAAD :=
  .ok { threeSegments.describe i with
    classTag := if i = 2 then Vector.replicate _ 4 else Vector.replicate _ 3 }

theorem grant_opensExactly_ends :
    ∃ issued file read opened,
      threeSegments.keys.issueGrant ending ([0, 2].map threeSegments.describe) = .ok issued ∧
      sealGrant ending issued (Vector.replicate _ 4) (text "pass") (Vector.replicate _ 5)
        (Vector.replicate _ 6) = .ok file ∧
      parseGrantFile (marshalGrantFile file) = .ok read ∧
      openGrantFile ending read (text "pass") = .ok opened ∧
      opened.openSegment ending (threeSegments.describe 2) (threeSegments.ciphertext ending 2) =
        .ok [2] ∧
      (∃ e, opened.openSegment ending (threeSegments.describe 1)
        (threeSegments.ciphertext ending 1) = .error e) ∧
      ∃ e, opened.matchesRecord ending reclassed = .error e := by
  have hrange : ∀ i ∈ ([0, 2] : List UInt64), i < threeSegments.keys.total :=
    List.forall_mem_cons.mpr ⟨by decide, List.forall_mem_singleton.mpr (by decide)⟩
  have hfree : ending.CollisionFree (· ∈ [grantDescriptorsInput ([0, 2].map threeSegments.describe),
      grantDescriptorsInput (presented reclassed [0, 2])]) := by
    have hall : ∀ x ∈ [grantDescriptorsInput ([0, 2].map threeSegments.describe),
        grantDescriptorsInput (presented reclassed [0, 2])],
        ∀ y ∈ [grantDescriptorsInput ([0, 2].map threeSegments.describe),
          grantDescriptorsInput (presented reclassed [0, 2])],
        ending.sha256 x = ending.sha256 y → x = y := by decide +kernel
    exact fun x y hx hy => hall x hx y hy
  obtain ⟨issued, file, read, opened, hissue, hseal, hparse, hopen, hgranted, hother, hmatches⟩ :=
    grant_opensExactly ending ending_aeadCorrect threeSegments [0, 2] (by decide) hrange
      (Vector.replicate _ 4) (text "pass") (by decide) (Vector.replicate _ 5) (Vector.replicate _ 6)
  exact ⟨issued, file, read, opened, hissue, hseal, hparse, hopen, hgranted 2 (by decide),
    hother _ _ (by decide), hmatches reclassed hfree ⟨2, by decide, by decide +kernel⟩⟩

end Mutant.Security
