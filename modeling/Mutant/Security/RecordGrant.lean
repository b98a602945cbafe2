import Mutant.Lib.Search
import Mutant.Security.RecordFile

/-!
# Grants

A model of `security/record_grant.go`: a grant holds the material of some segments of a record, in
the order of their indices, and travels in a file sealed under a passphrase.
-/

namespace Mutant.Security

/-! ### Data -/

/-- `GrantMaterialSize`. -/
def grantMaterialSize : Nat := keySize + nonceSize

/-- `MaxGrantMaterial`. -/
def maxGrantMaterial : Nat := grantMaterialSize * maxRecordSegments.toNat

/-- `MaxGrantFile`. -/
def maxGrantFile : Nat :=
  2 * (maxGrantMaterial + aeadOverhead) + 48 * maxRecordSegments.toNat + 2 ^ 16

def disclosureUIDSize : Nat := 16
def grantSaltSize : Nat := 32

/-- A stretch of granted segments. -/
structure GrantRun where
  first : UInt64
  last : UInt64
deriving DecidableEq

/-- A grant; `material` is nothing once it has been zeroed. -/
structure RecordGrant where
  caseUID : CaseUID
  recordUID : RecordUID
  generation : UInt32
  total : UInt64
  indices : List UInt64
  material : Option Bytes
  descriptorsRoot : Digest

/-- `CaseKeyKDF`. -/
structure GrantKDF where
  algorithm : Bytes
  salt : Bytes
  time : UInt32
  memoryKiB : UInt32
  threads : UInt8
  keyLen : UInt32
deriving DecidableEq

/-- The file of a grant; `runs` is nothing where the file has no run list. -/
structure GrantFile where
  format : Bytes
  version : UInt32
  disclosureUID : Bytes
  caseUID : Bytes
  recordUID : Bytes
  sealedUnderGeneration : UInt32
  segments : UInt64
  granted : UInt64
  runs : Option (List GrantRun)
  descriptorsRoot : Bytes
  kdf : GrantKDF
  nonce : Bytes
  blob : Bytes
deriving DecidableEq

/-- Why a grant is refused. -/
inductive GrantError
  | record (e : RecordError)
  | notSealed (sealed total : UInt64)
  | tooMany (count : Nat) (total : UInt64)
  | differentRecord (index : UInt64)
  | outOfRange (index total : UInt64)
  | namedTwice (index : UInt64)
  | zeroed
  | recordMismatch
  | notGranted
  | segment (index : UInt64) (e : FileError)
  | descriptorsChanged
  | unknownVersion (version : UInt32)
  | saltLength (got : Nat)
  | emptyPassphrase
  | auth
  | runList
  | runsShort
  | hexField (field : String)
  | tooLong (got : Nat)
  | json
  | repeatedKey (name : Bytes)
  | format (format : Bytes)
  | cost
  | generation
  | segments (count : UInt64)
  | grantedTooMany (granted segments : UInt64)
  | noRuns
  | runBackwards (i : Nat) (first last : UInt64)
  | runOutOfRange (i : Nat) (last : UInt64)
  | runAdjoins (i : Nat) (first : UInt64)
  | runsCount (counted granted : UInt64)
  | blobLength (got : Nat)
deriving DecidableEq

variable (P : Primitives)

/-! ### Issuing -/

/-- What `grantDescriptorsRoot` hashes. -/
def grantDescriptorsInput (sorted : List SegmentAAD) : Bytes :=
  text "mutant-grant-descriptors-v1" ++ BigEndian.put 8 (sorted.length % 2 ^ 64) ++
    sorted.flatMap SegmentAAD.encode

/-- `grantDescriptorsRoot`. -/
def grantDescriptorsRoot (sorted : List SegmentAAD) : Digest :=
  P.sha256 (grantDescriptorsInput sorted)

/-- The checks of `IssueGrant` on the sorted descriptors, `before` being the index before them. -/
def checkGranted (r : RecordKeys) : (before : Option UInt64) → List SegmentAAD →
    Except GrantError Unit
  | _, [] => .ok ()
  | before, d :: ds =>
    if d.caseUID ≠ r.caseUID ∨ d.recordUID ≠ r.uid ∨ d.generation ≠ r.generation ∨
        d.total ≠ r.total then .error (.differentRecord d.index)
    else if r.total ≤ d.index then .error (.outOfRange d.index r.total)
    else if before = some d.index then .error (.namedTwice d.index)
    else checkGranted r (some d.index) ds

/-- The key and the nonce of a segment, as a grant stores them. -/
def grantSlot (prk : Bytes) (d : SegmentAAD) : Bytes :=
  let (key, nonce) := RecordKeys.segmentMaterial P prk d.encode
  key ++ nonce.toList

/-- `RecordKeys.IssueGrant`. -/
def RecordKeys.issueGrant (r : RecordKeys) (descriptors : List SegmentAAD) :
    Except GrantError RecordGrant :=
  match r.prk with
  | none => .error (.record .zeroed)
  | some prk =>
    if r.sealable && !r.sealComplete then .error (.notSealed r.nextIndex r.total)
    else if r.total.toNat < descriptors.length then .error (.tooMany descriptors.length r.total)
    else
      let sorted := descriptors.mergeSort fun a b => a.index ≤ b.index
      match checkGranted r none sorted with
      | .error e => .error e
      | .ok () =>
        .ok { caseUID := r.caseUID, recordUID := r.uid, generation := r.generation,
              total := r.total, indices := sorted.map (·.index),
              material := some (sorted.flatMap (grantSlot P prk)),
              descriptorsRoot := grantDescriptorsRoot P sorted }

/-- `grantRunsOf`. -/
def grantRunsOf (indices : List UInt64) : List GrantRun := indices.foldl (fun runs index =>
    match runs.getLast? with
    | some run =>
      if run.last + 1 = index then runs.dropLast ++ [{ run with last := index }]
      else runs ++ [⟨index, index⟩]
    | none => runs ++ [⟨index, index⟩]) []

/-! ### Opening segments -/

namespace RecordGrant

/-- `RecordGrant.slot`. -/
def slot (g : RecordGrant) (index : UInt64) : Option Nat :=
  let i := Search.search g.indices.length fun i => index ≤ g.indices.getD i 0
  if g.indices[i]? = some index then some i else none

/-- `RecordGrant.sameRecord`. -/
def sameRecord (g : RecordGrant) (aad : SegmentAAD) : Bool :=
  aad.caseUID == g.caseUID && aad.recordUID == g.recordUID && aad.generation == g.generation &&
    aad.total == g.total

/-- `RecordGrant.OpenSegment`. -/
def openSegment (g : RecordGrant) (aad : SegmentAAD) (ciphertext : Bytes) :
    Except GrantError Bytes :=
  match g.material with
  | none => .error .zeroed
  | some material =>
    if !g.sameRecord aad then .error .recordMismatch
    else
      match g.slot aad.index with
      | none => .error .notGranted
      | some i =>
        let slot := (material.drop (i * grantMaterialSize)).take grantMaterialSize
        let nonce : XNonce := Vector.ofFn fun k => slot.getD (keySize + k) 0
        match openWith P (slot.take keySize) nonce ciphertext aad.encode errSegmentAuth with
        | .error e => .error (.record e)
        | .ok plaintext =>
          if plaintext.length ≠ aad.length.toNat then .error (.record errSegmentAuth)
          else .ok plaintext

/-- The loop of `MatchesRecord`: what the record says of the granted segments. -/
def describeGranted (g : RecordGrant) (describe : UInt64 → Except FileError SegmentAAD) :
    List UInt64 → Except GrantError (List SegmentAAD)
  | [] => .ok []
  | index :: indices =>
    match describe index with
    | .error e => .error (.segment index e)
    | .ok d =>
      if !g.sameRecord d || d.index != index then .error .recordMismatch
      else
        match describeGranted g describe indices with
        | .error e => .error e
        | .ok ds => .ok (d :: ds)

/-- `RecordGrant.MatchesRecord`. -/
def matchesRecord (g : RecordGrant) (describe : UInt64 → Except FileError SegmentAAD) :
    Except GrantError Unit :=
  match g.describeGranted describe g.indices with
  | .error e => .error e
  | .ok granted =>
    if grantDescriptorsRoot P granted ≠ g.descriptorsRoot then .error .descriptorsChanged
    else .ok ()

end RecordGrant

/-! ### The file -/

/-- A cost profile. -/
structure Argon2Profile where
  algorithm : Bytes
  time : UInt32
  memoryKiB : UInt32
  threads : UInt8
  keyLen : UInt32

/-- `grantFileProfiles`. -/
def grantFileProfile (version : UInt32) : Option Argon2Profile :=
  if version = 1 then some ⟨text "argon2id", 3, 262144, 4, 32⟩ else none

/-- `appendString`, the part that is appended. -/
def stringField (s : Bytes) : Bytes := BigEndian.put 4 (s.length % 2 ^ 32) ++ s

namespace GrantFile

/-- `GrantFile.canonical`: what the material is bound to. -/
def canonical (f : GrantFile) : Bytes :=
  let runs := f.runs.getD []
  stringField (text "mutant-disclosure-grant-v1") ++ BigEndian.put 4 f.version.toNat ++
    stringField f.disclosureUID ++ stringField f.caseUID ++ stringField f.recordUID ++
    BigEndian.put 4 f.sealedUnderGeneration.toNat ++ BigEndian.put 8 f.segments.toNat ++
    BigEndian.put 8 f.granted.toNat ++ BigEndian.put 8 (runs.length % 2 ^ 64) ++
    runs.flatMap (fun run =>
      BigEndian.put 8 run.first.toNat ++ BigEndian.put 8 run.last.toNat) ++
    stringField f.descriptorsRoot ++ stringField f.kdf.algorithm ++
    BigEndian.put 4 f.kdf.time.toNat ++ BigEndian.put 4 f.kdf.memoryKiB.toNat ++
    BigEndian.put 4 f.kdf.threads.toNat ++ BigEndian.put 4 f.kdf.keyLen.toNat ++
    stringField f.kdf.salt

/-- The segments of a run. -/
def runIndices (run : GrantRun) : List UInt64 :=
  (List.range (run.last.toNat - run.first.toNat + 1)).map fun k =>
    UInt64.ofNat (run.first.toNat + k)

/-- The loop of `shell` over the runs. -/
def expandRuns (f : GrantFile) : (indices : List UInt64) → List GrantRun →
    Except GrantError (List UInt64)
  | indices, [] => .ok indices
  | indices, run :: runs =>
    if run.last < run.first ∨ f.segments ≤ run.last ∨
        f.granted < UInt64.ofNat indices.length + run.last - run.first + 1 then .error .runList
    else expandRuns f (indices ++ runIndices run) runs

/-- `GrantFile.shell`: the grant a file describes, without its material. -/
def shell (f : GrantFile) : Except GrantError RecordGrant :=
  match hexOfLength f.caseUID caseUIDSize with
  | none => .error (.hexField "case_uid")
  | some caseUID =>
    match hexOfLength f.recordUID recordUIDSize with
    | none => .error (.hexField "record_uid")
    | some recordUID =>
      match hexOfLength f.descriptorsRoot digestSize with
      | none => .error (.hexField "descriptors_root")
      | some descriptorsRoot =>
        match f.expandRuns [] (f.runs.getD []) with
        | .error e => .error e
        | .ok indices =>
          if UInt64.ofNat indices.length ≠ f.granted then .error .runsShort
          else
            .ok { caseUID, recordUID, indices, descriptorsRoot, material := none,
                  generation := f.sealedUnderGeneration, total := f.segments }

end GrantFile

/-- `grantWrapKey`. -/
def grantWrapKey (passphrase salt : Bytes) (version : UInt32) :
    Except GrantError (Vector UInt8 keySize) :=
  match grantFileProfile version with
  | none => .error (.unknownVersion version)
  | some profile =>
    if salt.length ≠ grantSaltSize then .error (.saltLength salt.length)
    else if passphrase.isEmpty then .error .emptyPassphrase
    else
      let stretched := P.argon2id passphrase salt profile.time profile.memoryKiB profile.threads
        profile.keyLen
      .ok (P.expand (P.extract stretched []) (text "mutant-grant-wrap-v1") keySize)

/-- `SealGrant`, given the salt and the nonce that were drawn. -/
def sealGrant (g : RecordGrant) (disclosure : Vector UInt8 disclosureUIDSize) (passphrase : Bytes)
    (salt : Vector UInt8 grantSaltSize) (nonce : XNonce) : Except GrantError GrantFile :=
  match g.material, grantFileProfile 1 with
  | none, _ => .error .zeroed
  | some _, none => .error (.unknownVersion 1)
  | some material, some profile =>
    let f : GrantFile :=
      { format := text "mutant-disclosure-grant", version := 1,
        disclosureUID := Hex.encode disclosure.toList, caseUID := Hex.encode g.caseUID.toList,
        recordUID := Hex.encode g.recordUID.toList, sealedUnderGeneration := g.generation,
        segments := g.total, granted := UInt64.ofNat g.indices.length,
        runs := some (grantRunsOf g.indices),
        descriptorsRoot := Hex.encode g.descriptorsRoot.toList,
        kdf := ⟨profile.algorithm, Hex.encode salt.toList, profile.time, profile.memoryKiB,
          profile.threads, profile.keyLen⟩,
        nonce := [], blob := [] }
    match grantWrapKey P passphrase salt.toList f.version with
    | .error e => .error e
    | .ok wrapKey =>
      match sealWithLimit P wrapKey.toList nonce material f.canonical maxGrantMaterial "a grant" with
      | .error e => .error (.record e)
      | .ok blob => .ok { f with nonce := Hex.encode nonce.toList, blob := Hex.encode blob }

/-- `OpenGrantFile`. -/
def openGrantFile (f : GrantFile) (passphrase : Bytes) : Except GrantError RecordGrant :=
  match hexOfLength f.kdf.salt grantSaltSize with
  | none => .error .auth
  | some salt =>
    match grantWrapKey P passphrase salt.toList f.version with
    | .error e => .error e
    | .ok wrapKey =>
      match hexOfLength f.nonce nonceSize, Hex.decode f.blob with
      | some nonce, some blob =>
        match openWithLimit P wrapKey.toList nonce blob f.canonical
            (.auth "the grant did not open: the passphrase is wrong, or the file has been edited")
            maxGrantMaterial "a grant" with
        | .error e => .error (.record e)
        | .ok material =>
          if UInt64.ofNat material.length ≠ f.granted * UInt64.ofNat grantMaterialSize then
            .error .auth
          else
            match f.shell with
            | .error _ => .error .auth
            | .ok grant => .ok { grant with material := some material }
      | _, _ => .error .auth

/-! ### Its text -/

section

open Json Coding

def grantRunFields : List (Json.Field GrantRun) :=
  [field (text "first") uint64 (·.first) fun r v => { r with first := v },
   field (text "last") uint64 (·.last) fun r v => { r with last := v }]

def caseKeyKDFFields : List (Json.Field GrantKDF) :=
  [field (text "algorithm") Coding.string (·.algorithm) fun k v => { k with algorithm := v },
   field (text "salt") Coding.string (·.salt) fun k v => { k with salt := v },
   field (text "time") uint32 (·.time) fun k v => { k with time := v },
   field (text "memory_kib") uint32 (·.memoryKiB) fun k v => { k with memoryKiB := v },
   field (text "threads") uint8 (·.threads) fun k v => { k with threads := v },
   field (text "key_len") uint32 (·.keyLen) fun k v => { k with keyLen := v }]

/-- The fields of a grant file; beside it stands what is left past the end of its runs. -/
def grantFileFields : List (Json.Field (GrantFile × List GrantRun)) :=
  [field (text "format") Coding.string (·.1.format) fun f v => ({ f.1 with format := v }, f.2),
   field (text "version") uint32 (·.1.version) fun f v => ({ f.1 with version := v }, f.2),
   field (text "disclosure_uid") Coding.string (·.1.disclosureUID)
     fun f v => ({ f.1 with disclosureUID := v }, f.2),
   field (text "case_uid") Coding.string (·.1.caseUID) fun f v => ({ f.1 with caseUID := v }, f.2),
   field (text "record_uid") Coding.string (·.1.recordUID)
     fun f v => ({ f.1 with recordUID := v }, f.2),
   field (text "sealed_under_generation") uint32 (·.1.sealedUnderGeneration)
     fun f v => ({ f.1 with sealedUnderGeneration := v }, f.2),
   field (text "segments") uint64 (·.1.segments) fun f v => ({ f.1 with segments := v }, f.2),
   field (text "granted") uint64 (·.1.granted) fun f v => ({ f.1 with granted := v }, f.2),
   field (text "runs") (slice (struct grantRunFields) ⟨0, 0⟩) (fun f => ⟨f.1.runs, f.2⟩)
     fun f v => ({ f.1 with runs := v.items }, v.past),
   field (text "descriptors_root") Coding.string (·.1.descriptorsRoot)
     fun f v => ({ f.1 with descriptorsRoot := v }, f.2),
   field (text "kdf") (struct caseKeyKDFFields) (·.1.kdf) fun f v => ({ f.1 with kdf := v }, f.2),
   field (text "nonce") Coding.string (·.1.nonce) fun f v => ({ f.1 with nonce := v }, f.2),
   field (text "blob") Coding.string (·.1.blob) fun f v => ({ f.1 with blob := v }, f.2)]

end

/-- A grant file before anything is decoded into it. -/
def emptyGrantFile : GrantFile :=
  ⟨[], 0, [], [], [], 0, 0, 0, none, [], ⟨[], [], 0, 0, 0, 0⟩, [], []⟩

/-- `MarshalGrantFile`: indented, with a line end after it. -/
def marshalGrantFile (f : GrantFile) : Bytes :=
  (Json.writeStruct grantFileFields (f, [])).render Json.indented 0 ++ text "\n"

/-- The file `ParseGrantFile` decodes a text to, before it looks at the fields. -/
def decodeGrantFile (data : Bytes) : Except GrantError GrantFile :=
  match decodeFile grantFileFields (emptyGrantFile, []) data with
  | none => .error .json
  | some (f, _) =>
    match repeatedKey data with
    | some name => .error (.repeatedKey name)
    | none => .ok f

/-- The loop of `ParseGrantFile` over the runs: `before` is the run before, `counted` the segments
in the runs before. -/
def checkRuns (segments : UInt64) : (i : Nat) → (before : Option GrantRun) → (counted : UInt64) →
    List GrantRun → Except GrantError UInt64
  | _, _, counted, [] => .ok counted
  | i, before, counted, run :: runs =>
    if run.last < run.first then .error (.runBackwards i run.first run.last)
    else if segments ≤ run.last then .error (.runOutOfRange i run.last)
    else if before.any fun before => run.first ≤ before.last + 1 then
      .error (.runAdjoins i run.first)
    else checkRuns segments (i + 1) (some run) (counted + (run.last - run.first + 1)) runs

/-- The checks of `ParseGrantFile` on a file that was decoded. -/
def GrantFile.validate (f : GrantFile) : Except GrantError Unit :=
  if f.format ≠ text "mutant-disclosure-grant" then .error (.format f.format)
  else
    match grantFileProfile f.version with
    | none => .error (.unknownVersion f.version)
    | some profile =>
      if f.kdf.algorithm ≠ profile.algorithm ∨ f.kdf.time ≠ profile.time ∨
          f.kdf.memoryKiB ≠ profile.memoryKiB ∨ f.kdf.threads ≠ profile.threads ∨
          f.kdf.keyLen ≠ profile.keyLen then .error .cost
      else if hexOfLength f.disclosureUID disclosureUIDSize = none then
        .error (.hexField "disclosure_uid")
      else if hexOfLength f.caseUID caseUIDSize = none then .error (.hexField "case_uid")
      else if hexOfLength f.recordUID recordUIDSize = none then .error (.hexField "record_uid")
      else if f.sealedUnderGeneration < 1 then .error .generation
      else if f.segments = 0 ∨ maxRecordSegments < f.segments then .error (.segments f.segments)
      else if f.segments < f.granted then .error (.grantedTooMany f.granted f.segments)
      else if hexOfLength f.descriptorsRoot digestSize = none then
        .error (.hexField "descriptors_root")
      else if hexOfLength f.kdf.salt grantSaltSize = none then .error (.hexField "kdf.salt")
      else if hexOfLength f.nonce nonceSize = none then .error (.hexField "nonce")
      else
        match f.runs with
        | none => .error .noRuns
        | some runs =>
          match checkRuns f.segments 0 none 0 runs with
          | .error e => .error e
          | .ok counted =>
            if counted ≠ f.granted then .error (.runsCount counted f.granted)
            else if UInt64.ofNat f.blob.length ≠
                2 * (f.granted * UInt64.ofNat grantMaterialSize + UInt64.ofNat aeadOverhead) then
              .error (.blobLength f.blob.length)
            else .ok ()

/-- `ParseGrantFile`. -/
def parseGrantFile (data : Bytes) : Except GrantError GrantFile :=
  if maxGrantFile < data.length then .error (.tooLong data.length)
  else
    match decodeGrantFile data with
    | .error e => .error e
    | .ok f =>
      match f.validate with
      | .error e => .error e
      | .ok () => .ok f

end Mutant.Security
