import Mutant.Security.RecordKeys

/-!
# Sealing with many handles

Any handles, made for sealing or for opening, and any calls of `SealSegment` on them, each with a
descriptor that one of the handles gives out.  A log keeps what was sealed: by which handle, for
which descriptor and under which key and nonce.
-/

namespace Mutant.Security

/-- What a handle is made from. -/
structure Mint where
  caseUID : CaseUID
  uid : RecordUID
  generation : UInt32
  total : UInt64
  recordKey : Vector UInt8 keySize
  sealSalt : Vector UInt8 sealSaltSize
  sealable : Bool
  total_ne_zero : total ≠ 0

/-- A call of `SealSegment`: the handle, the handle that gives out the descriptor, what it is asked
to describe, and the plaintext. -/
structure SealCall (ι : Type) where
  handle : ι
  source : ι
  index : UInt64
  offset : UInt64
  length : UInt32
  classTag : ClassTag
  plaintext : Bytes

/-- A segment that was sealed. -/
structure Sealed (ι : Type) where
  handle : ι
  aad : SegmentAAD
  key : Bytes
  nonce : XNonce

/-- The handles, and what they have sealed so far. -/
structure SealState (ι : Type) where
  handles : ι → RecordKeys
  log : List (Sealed ι)

variable {ι : Type} [DecidableEq ι] (P : Primitives)

/-- The pseudorandom key of a handle. -/
def Mint.prk (m : Mint) : Bytes := P.extract m.recordKey.toList (m.uid.toList ++ m.sealSalt.toList)

/-- The handle as it is made. -/
def Mint.handle (m : Mint) : RecordKeys :=
  { caseUID := m.caseUID, uid := m.uid, generation := m.generation, total := m.total,
    prk := some (m.prk P), sealable := m.sealable, nextIndex := 0 }

/-- The descriptor a call passes. -/
def SealCall.descriptor (c : SealCall ι) (handles : ι → RecordKeys) : SegmentAAD :=
  (handles c.source).segmentAAD c.index c.offset c.length c.classTag

/-- What is logged when a handle seals a segment. -/
def Sealed.of (h : ι) (r : RecordKeys) (aad : SegmentAAD) : Sealed ι :=
  let (key, nonce) := RecordKeys.segmentMaterial P (r.prk.getD []) aad.encode
  ⟨h, aad, key, nonce⟩

/-- One call. -/
def SealState.call (s : SealState ι) (c : SealCall ι) : SealState ι :=
  let aad := c.descriptor s.handles
  match (s.handles c.handle).sealSegment P aad c.plaintext with
  | .error _ => s
  | .ok (_, keys) =>
    { handles := fun i => if i = c.handle then keys else s.handles i
      log := s.log ++ [Sealed.of P c.handle (s.handles c.handle) aad] }

/-- A sequence of calls on handles as they are made. -/
def sealRun (mints : ι → Mint) (calls : List (SealCall ι)) : SealState ι :=
  calls.foldl (SealState.call P) ⟨fun i => (mints i).handle P, []⟩

/-! ### What should hold -/

/-- The descriptor names the record of the handle. -/
def Mint.Owns (m : Mint) (aad : SegmentAAD) : Prop :=
  aad.caseUID = m.caseUID ∧ aad.recordUID = m.uid ∧ aad.generation = m.generation ∧
    aad.total = m.total

instance (m : Mint) (aad : SegmentAAD) : Decidable (m.Owns aad) :=
  inferInstanceAs (Decidable (_ ∧ _))

/-- How often the handle sealed the segment of its record. -/
def timesSealed (mints : ι → Mint) (log : List (Sealed ι)) (i : ι) (index : Nat) : Nat :=
  log.countP fun e => e.handle = i ∧ (mints i).Owns e.aad ∧ e.aad.index.toNat = index

/-- No key and nonce are used twice, a handle seals segments of its own record only, and it is
complete exactly when it has sealed each of them once. -/
structure SealsSafely (mints : ι → Mint) (s : SealState ι) : Prop where
  noReuse : s.log.Pairwise fun a b => (a.key, a.nonce) ≠ (b.key, b.nonce)
  ownRecord : ∀ e ∈ s.log, (mints e.handle).Owns e.aad
  complete : ∀ i, (s.handles i).sealComplete = true ↔
    ∀ index < (mints i).total.toNat, timesSealed mints s.log i index = 1

/-- Record keys minted for sealing are distinct, and nothing that the calls derive comes out the
same from different inputs. -/
structure Distinct (mints : ι → Mint) (calls : List (SealCall ι)) : Prop where
  recordKey : ∀ i j, (mints i).sealable = true → (mints j).sealable = true →
    (mints i).recordKey = (mints j).recordKey → i = j
  prk : ∀ i j, (mints i).prk P = (mints j).prk P → (mints i).recordKey = (mints j).recordKey
  material : ∀ i j, ∀ c ∈ calls, ∀ d ∈ calls,
    RecordKeys.material P ((mints i).prk P) (c.descriptor fun i => (mints i).handle P).encode =
      RecordKeys.material P ((mints j).prk P) (d.descriptor fun i => (mints i).handle P).encode →
    (mints i).prk P = (mints j).prk P ∧
      RecordKeys.segmentInfo P (c.descriptor fun i => (mints i).handle P).encode =
        RecordKeys.segmentInfo P (d.descriptor fun i => (mints i).handle P).encode
  digest : P.CollisionFree fun m =>
    ∃ c ∈ calls, m = (c.descriptor fun i => (mints i).handle P).encode

/-- Each call that is taken passes a descriptor of its handle's record. -/
def OwnDescriptors (P : Primitives) (mints : ι → Mint) (calls : List (SealCall ι)) : Prop :=
  ∀ pre c post, calls = pre ++ c :: post →
    ((sealRun P mints pre).handles c.handle).Takes (c.descriptor (sealRun P mints pre).handles)
      c.plaintext →
    (mints c.handle).Owns (c.descriptor (sealRun P mints pre).handles)

end Mutant.Security
