import Mutant.Lib.Result
import Mutant.Security.Equiv.RecordKeys
import Mutant.Security.Equiv.Segments

/-!
# What a record's signature covers

The signing message tells the header bytes, the descriptors and the ciphertexts.  The nonce and the
blob of the sealed metadata are joined by a bar that either may contain, so it tells them only when
the nonce has a known length.

* `recordSigningMessage_inj`: the header, the root and the metadata bytes are told by the message.
* `signature_coversParts_iff`: files with one signing message have the same parts exactly when their
  metadata nonces are of one length.
-/

namespace Mutant.Security

open List hiding Vector

variable {P : Primitives}

/-- A record file as it was read: the header, its segments with their descriptors and what is
stored for them, and the footer. -/
structure ParsedRecord where
  headerRaw : Bytes
  header : RecordHeader
  segments : List RecordSegment
  descriptors : List SegmentAAD
  stored : List Bytes
  footerRaw : Bytes
  footer : RecordFooter
  headerRaw_length : headerRaw.length ≤ maxRecordHeader
  parsed : parseRecordHeader headerRaw = .ok header
  segmented : header.segments = .ok segments
  described : segments.mapM (header.segmentAAD · (UInt64.ofNat segments.length)) = .ok descriptors
  stored_length : stored.length = segments.length
  footed : parseRecordFooter footerRaw = .ok footer

namespace ParsedRecord

variable (P) (f g : ParsedRecord)

/-- The digests of the segments. -/
def digests : List Digest := List.zipWith (segmentDigest P) f.descriptors f.stored

/-- The root that `recordRecomputeRoot` computes. -/
def root : Digest := segmentsRoot P (f.digests P)

/-- The message that is signed. -/
def signingMessage : Bytes := recordSigningMessage f.headerRaw (f.root P) (footerMetaBytes f.footer)

/-- The messages that are hashed on the way to the signing message. -/
def hashed : List Bytes := segmentsRootInput (f.digests P) ::
    (f.descriptors.zip f.stored).map fun pair => pair.1.encode ++ pair.2

/-- The files have the same header bytes, descriptors, ciphertexts and sealed metadata. -/
def SameParts : Prop :=
  f.headerRaw = g.headerRaw ∧ f.descriptors = g.descriptors ∧ f.stored = g.stored ∧
    f.footer.sealedMeta.nonce = g.footer.sealedMeta.nonce ∧
    f.footer.sealedMeta.blob = g.footer.sealedMeta.blob

end ParsedRecord

/-! ### Framing -/

theorem lengthPrefixed_append_inj {a b x y : Bytes} (ha : a.length < 2 ^ 64)
    (hb : b.length < 2 ^ 64) (h : lengthPrefixed a ++ x = lengthPrefixed b ++ y) :
    a = b ∧ x = y := by
  unfold lengthPrefixed at h
  rw [append_assoc, append_assoc] at h
  obtain ⟨hlen, h⟩ := append_inj h (by simp only [BigEndian.length_put])
  rw [Nat.mod_eq_of_lt ha, Nat.mod_eq_of_lt hb] at hlen
  exact append_inj h (BigEndian.put_inj ha hb hlen)

theorem lengthPrefixed_inj {a b : Bytes} (h : lengthPrefixed a = lengthPrefixed b) : a = b :=
  (append_inj h (by simp only [BigEndian.length_put])).2

/-- A signing message tells its header, its root and its metadata. -/
theorem recordSigningMessage_inj {header header' sealedMeta sealedMeta' : Bytes}
    {root root' : Digest} (hh : header.length < 2 ^ 64) (hh' : header'.length < 2 ^ 64)
    (h : recordSigningMessage header root sealedMeta =
      recordSigningMessage header' root' sealedMeta') :
    header = header' ∧ root = root' ∧ sealedMeta = sealedMeta' := by
  unfold recordSigningMessage at h
  simp only [append_assoc, append_cancel_left_eq] at h
  obtain ⟨hhdr, h⟩ := lengthPrefixed_append_inj hh hh' h
  obtain ⟨hroot, hmeta⟩ := append_inj h (by simp only [Vector.length_toList])
  exact ⟨hhdr, Vector.toList_inj.mp hroot, lengthPrefixed_inj hmeta⟩

/-- Blocks of one size are told by the bytes they make together. -/
theorem flatMap_inj {α : Type} {φ : α → Bytes} {n : Nat} (hn : 0 < n)
    (hlen : ∀ a, (φ a).length = n) (hinj : ∀ a b, φ a = φ b → a = b) {xs ys : List α}
    (h : xs.flatMap φ = ys.flatMap φ) : xs = ys := by
  have hne (a : α) : φ a ≠ [] := ne_nil_of_length_pos (hlen a ▸ hn)
  induction xs generalizing ys with
  | nil =>
    cases ys with
    | nil => rfl
    | cons y ys => exact absurd (append_eq_nil_iff.mp h.symm).1 (hne y)
  | cons x xs ih =>
    cases ys with
    | nil => exact absurd (append_eq_nil_iff.mp h).1 (hne x)
    | cons y ys =>
      obtain ⟨hx, h⟩ := append_inj h (by rw [hlen, hlen])
      rw [hinj x y hx, ih h]

theorem segmentsRootInput_inj {xs ys : List Digest}
    (h : segmentsRootInput xs = segmentsRootInput ys) : xs = ys := by
  unfold segmentsRootInput at h
  simp only [append_assoc, append_cancel_left_eq] at h
  exact flatMap_inj (by decide) (fun _ => Vector.length_toList) (fun _ _ => Vector.toList_inj.mp)
    (append_inj h (by simp only [BigEndian.length_put])).2

/-- The nonce and the blob are told apart exactly when the nonces are of one length. -/
theorem footerMetaBytes_eq_iff {f g : RecordFooter} (h : footerMetaBytes f = footerMetaBytes g) :
    (f.sealedMeta.nonce = g.sealedMeta.nonce ∧ f.sealedMeta.blob = g.sealedMeta.blob) ↔
      f.sealedMeta.nonce.length = g.sealedMeta.nonce.length := by
  constructor
  · rintro ⟨hnonce, -⟩
    rw [hnonce]
  · intro hlen
    unfold footerMetaBytes at h
    rw [append_assoc, append_assoc] at h
    obtain ⟨hnonce, h⟩ := append_inj h hlen
    exact ⟨hnonce, append_cancel_left h⟩

/-! ### Signed records -/

theorem length_of_mapM_ok {α β ε : Type} {φ : α → Except ε β} {l : List α} {out : List β}
    (h : l.mapM φ = .ok out) : out.length = l.length :=
  (Result.forall₂_of_mapM (R := fun _ _ => True) (fun _ _ _ => trivial) h).length_eq.symm

/-- Lists are equal when they are mapped alike by what tells their elements apart. -/
theorem eq_of_map_eq {α β : Type} {φ : α → β} {l l' : List α}
    (hinj : ∀ a ∈ l, ∀ b ∈ l', φ a = φ b → a = b) (h : l.map φ = l'.map φ) : l = l' := by
  induction l generalizing l' with
  | nil => exact (map_eq_nil_iff.mp h.symm).symm
  | cons a l ih =>
    cases l' with
    | nil => cases h
    | cons b l' =>
      obtain ⟨hhead, htail⟩ := cons.inj h
      rw [hinj a mem_cons_self b mem_cons_self hhead,
        ih (fun x hx y hy => hinj x (mem_cons_of_mem a hx) y (mem_cons_of_mem b hy)) htail]

namespace ParsedRecord

variable {f g : ParsedRecord}

theorem descriptors_length (f : ParsedRecord) : f.descriptors.length = f.stored.length := by
  rw [length_of_mapM_ok f.described, f.stored_length]

theorem headerRaw_lt (f : ParsedRecord) : f.headerRaw.length < 2 ^ 64 :=
  Nat.lt_of_le_of_lt f.headerRaw_length (by decide)

/-- The digests tell the descriptors and the ciphertexts. -/
theorem zip_eq_of_digests_eq (hfree : P.CollisionFree (· ∈ f.hashed P ++ g.hashed P))
    (h : f.digests P = g.digests P) : f.descriptors.zip f.stored = g.descriptors.zip g.stored := by
  unfold digests at h
  rw [← map_uncurry_zip_eq_zipWith, ← map_uncurry_zip_eq_zipWith] at h
  refine eq_of_map_eq ?_ h
  intro a ha b hb hdigest
  have hin (r : ParsedRecord) {x} (hx : x ∈ r.descriptors.zip r.stored) :
      x.1.encode ++ x.2 ∈ r.hashed P := mem_cons_of_mem _ (mem_map.mpr ⟨x, hx, rfl⟩)
  have hinput := hfree _ _ (mem_append_left _ (hin f ha)) (mem_append_right _ (hin g hb))
    hdigest
  have hlen : a.1.encode.length = b.1.encode.length := by
    rw [SegmentAAD.length_encode, SegmentAAD.length_encode]
  obtain ⟨haad, hsto⟩ := append_inj hinput hlen
  exact Prod.ext (SegmentAAD.encode_inj haad) hsto

/-- Two files with one signing message have the same parts exactly when their nonces are of one
length. -/
theorem sameParts_iff_of_signingMessage_eq (hfree : P.CollisionFree (· ∈ f.hashed P ++ g.hashed P))
    (h : f.signingMessage P = g.signingMessage P) :
    SameParts f g ↔ f.footer.sealedMeta.nonce.length = g.footer.sealedMeta.nonce.length := by
  obtain ⟨hhdr, hroot, hmeta⟩ := recordSigningMessage_inj f.headerRaw_lt g.headerRaw_lt h
  have hdigests := segmentsRootInput_inj (hfree _ _ (mem_append_left _ mem_cons_self)
    (mem_append_right _ mem_cons_self) hroot)
  have hzip := zip_eq_of_digests_eq hfree hdigests
  have hdescriptors : f.descriptors = g.descriptors := by
    rw [← map_fst_zip (Nat.le_of_eq f.descriptors_length), hzip,
      map_fst_zip (Nat.le_of_eq g.descriptors_length)]
  have hsto : f.stored = g.stored := by
    rw [← map_snd_zip (Nat.le_of_eq f.descriptors_length.symm), hzip,
      map_snd_zip (Nat.le_of_eq g.descriptors_length.symm)]
  rw [← footerMetaBytes_eq_iff hmeta]
  constructor
  · rintro ⟨-, -, -, hnonce, hblob⟩
    exact ⟨hnonce, hblob⟩
  · rintro ⟨hnonce, hblob⟩
    exact ⟨hhdr, hdescriptors, hsto, hnonce, hblob⟩

end ParsedRecord

/-- A signature that is accepted verifies for the signing message. -/
theorem verify_of_accepted {verify : Verifier} {ft : RecordFooter} {header : Bytes}
    {root : Digest} {publicKey : Vector UInt8 32} {signature : Vector UInt8 64}
    (hkey : hexOfLength ft.publicKey 32 = some publicKey)
    (hsig : hexOfLength ft.signature 64 = some signature)
    (h : (verifyRecordSignature verify ft header root).2.1 = true) :
    verify publicKey (recordSigningMessage header root (footerMetaBytes ft)) signature = true := by
  by_contra hverify
  have hrefused : (verifyRecordSignature verify ft header root).2.1 = false := by
    unfold verifyRecordSignature
    rw [hkey, hsig]
    dsimp only
    split
    · rfl
    · split
      · rfl
      · split
        · rfl
        · split <;> rfl
  rw [hrefused] at h
  cases h

/-- Files with one signing message have the same parts exactly when their metadata nonces are of
one length; and so do a signed file and one that is accepted with its signature. -/
theorem signature_coversParts_iff (P : Primitives) (verify : Verifier) (f g : ParsedRecord)
    (hfree : P.CollisionFree (· ∈ f.hashed P ++ g.hashed P)) :
    (f.signingMessage P = g.signingMessage P → (f.SameParts g ↔
        f.footer.sealedMeta.nonce.length = g.footer.sealedMeta.nonce.length)) ∧
    ∀ publicKey signature, (∀ m, verify publicKey m signature = true → m = f.signingMessage P) →
      hexOfLength g.footer.publicKey 32 = some publicKey →
      hexOfLength g.footer.signature 64 = some signature →
      (verifyRecordSignature verify g.footer g.headerRaw (g.root P)).2.1 = true →
      (f.SameParts g ↔ f.footer.sealedMeta.nonce.length = g.footer.sealedMeta.nonce.length) := by
  refine ⟨ParsedRecord.sameParts_iff_of_signingMessage_eq hfree, ?_⟩
  intro publicKey signature hbinds hkey hsig haccepted
  have hmessage := hbinds _ (verify_of_accepted hkey hsig haccepted)
  exact ParsedRecord.sameParts_iff_of_signingMessage_eq hfree hmessage.symm

/-! ### A shifted bar -/

/-- A signed footer with the given metadata and root, and a remark that is not signed. -/
def sampleFooter (nonce blob remark : Bytes) (root : Digest) : RecordFooter where
  sealedMeta := ⟨nonce, blob⟩
  segmentsRoot := Hex.encode root.toList
  signed := true
  signatureReason := remark
  publicKey := Hex.encode (List.replicate 32 5)
  signature := Hex.encode (List.replicate 64 6)
  keyCreatedForThisRun := false

def sampleStored : List Bytes := [List.replicate 18 7, List.replicate 17 8]

/-- The segments of the header and their descriptors. -/
def sampleSegments : List RecordSegment :=
  [⟨0, 0, 2, Vector.replicate _ 4, 0, 18⟩, ⟨1, 2, 1, Vector.replicate _ 4, 18, 17⟩]

def sampleDescriptors : List SegmentAAD := sampleSegments.map fun s =>
    { caseUID := Vector.replicate _ 2, recordUID := Vector.replicate _ 1, index := s.index,
      total := 2, offset := s.offset, length := s.length, generation := 1, classTag := s.classTag }

def sampleRoot : Digest :=
  segmentsRoot copying (List.zipWith (segmentDigest copying) sampleDescriptors sampleStored)

/-- Footers with the bar after two digits, with it after five, and with a remark besides. -/
inductive Sample
  | early | late | remarked

def Sample.footer : Sample → RecordFooter
  | early => sampleFooter (text "00") (text "11|22") [] sampleRoot
  | late => sampleFooter (text "00|11") (text "22") [] sampleRoot
  | remarked => sampleFooter (text "00|11") (text "22") (text "seen") sampleRoot

def Sample.record (sample : Sample) : ParsedRecord where
  headerRaw := sampleHeaderRaw
  header := sampleHeader
  segments := sampleSegments
  descriptors := sampleDescriptors
  stored := sampleStored
  footerRaw := (Json.writeStruct recordFooterFields sample.footer).render Json.compact 0
  footer := sample.footer
  headerRaw_length := by decide +kernel
  parsed := parseRecordHeader_sample
  segmented := by decide +kernel
  described := by decide +kernel
  stored_length := rfl
  footed := by cases sample <;> decide +kernel

/-- Neither the bar nor the remark is in what is hashed. -/
theorem Sample.hashed_eq (sample : Sample) :
    sample.record.hashed copying = late.record.hashed copying := by
  cases sample <;> rfl

theorem Sample.collisionFree (a b : Sample) :
    copying.CollisionFree (· ∈ a.record.hashed copying ++ b.record.hashed copying) := by
  have hall : ∀ x ∈ late.record.hashed copying, ∀ y ∈ late.record.hashed copying,
      copying.sha256 x = copying.sha256 y → x = y := by decide +kernel
  intro x y hx hy
  rw [a.hashed_eq, b.hashed_eq, mem_append, or_self] at hx hy
  exact hall x hx y hy

/-- A remark may be added to a signed file, but its parts may not be changed. -/
theorem signature_coversParts_sample :
    Sample.late.record.footerRaw ≠ Sample.remarked.record.footerRaw ∧
      Sample.late.record.SameParts Sample.remarked.record := by
  have hcovers := signature_coversParts_iff copying
    (fun _ m _ => m == Sample.late.record.signingMessage copying) Sample.late.record
    Sample.remarked.record (Sample.collisionFree .late .remarked)
  refine ⟨by decide +kernel, (hcovers.2 (Vector.replicate _ 5) (Vector.replicate _ 6) ?_
    (by decide +kernel) (by decide +kernel) (by decide +kernel)).mpr (by decide +kernel)⟩
  exact fun m hm => beq_iff_eq.mp hm

/-- Moving the bar changes the nonce and the blob, and the signature is accepted all the same. -/
theorem shiftedBar_accepted :
    copying.CollisionFree
        (· ∈ Sample.early.record.hashed copying ++ Sample.late.record.hashed copying) ∧
      Sample.early.record.signingMessage copying = Sample.late.record.signingMessage copying ∧
      (verifyRecordSignature (fun _ m _ => m == Sample.early.record.signingMessage copying)
        Sample.late.record.footer Sample.late.record.headerRaw
        (Sample.late.record.root copying)).2.1 = true ∧
      ¬ Sample.early.record.SameParts Sample.late.record := by
  refine ⟨Sample.collisionFree .early .late, by decide +kernel, by decide +kernel, ?_⟩
  rintro ⟨-, -, -, hnonce, -⟩
  exact absurd hnonce (by decide +kernel)

end Mutant.Security
