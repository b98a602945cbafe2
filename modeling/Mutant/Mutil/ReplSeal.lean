import Mutant.Mutil.SealedValue

/-!
# Sealing the lines of a session

Every line of a session is a program of its own over one constant pool.  The virtual machine that
runs a line takes all instructions off one stream, seeded with the length of that line's own, so
the functions of earlier lines are brought over to it before the line runs.
-/

namespace Mutant.Mutil

open Mutant.Security (Bytes)

variable {κ : Type}

/-- The instructions of the function objects, by address. -/
abbrev Heap := Nat → Bytes

def Heap.write (heap : Heap) (address : Nat) (instructions : Bytes) : Heap :=
  fun a => if a = address then instructions else heap a

/-- Go's `copy`. -/
def copyBytes (dst src : Bytes) : Bytes := src.take dst.length ++ dst.drop src.length

/-- What `Seal` reads and writes of a `ByteCode`. -/
structure ByteCode (κ : Type) where
  instructions : Bytes
  constants : List (Option (Object κ))
  deriving Repr, DecidableEq

structure ReplSealer where
  password : Bytes
  /-- The instruction length the sealed constants are under. -/
  seed : Int
  /-- How many leading constants are sealed. -/
  sealed : Nat
  deriving Repr, DecidableEq

def newReplSealer (password : Bytes) : ReplSealer := ⟨password, 0, 0⟩

def errReplSealerPoolShrank : String := "mutil: repl constant pool shrank between lines"
def errReplSealerNoPassword : String := "mutil: repl sealer needs a non-empty password"

/-- The error a stream gives, under the position of the constant it was met at. -/
def rekeyFault (i : Nat) : Fault → Fault
  | .error message => .error (s!"mutil: re-keying repl constant {i}: " ++ message)
  | .crash => .crash

/-- The body of a carried-over function under the next line's stream. -/
def rekeyBody (K : Keystream) (s : ReplSealer) (next : Int) (i : Nat) (body : Bytes) :
    Except Fault Bytes :=
  (secureXOR K body s.seed s.password >>= fun plain => secureXOR K plain next s.password).mapError
    (rekeyFault i)

/-- Phase one: the functions among the constants from position `i` on, with their bodies under
the next line's stream.  Nothing is written. -/
def rekeyed (K : Keystream) (s : ReplSealer) (next : Int) (heap : Heap) :
    Nat → List (Option (Object κ)) → Except Fault (List (Nat × Bytes))
  | _, [] => .ok []
  | i, some (.compiledFunction address) :: rest =>
    if (heap address).length = 0 then rekeyed K s next heap (i + 1) rest
    else do
      let sealed ← rekeyBody K s next i (heap address)
      let entries ← rekeyed K s next heap (i + 1) rest
      return (address, sealed) :: entries
  | i, _ :: rest => rekeyed K s next heap (i + 1) rest

/-- Phase two. -/
def writeBack (heap : Heap) (entries : List (Nat × Bytes)) : Heap :=
  entries.foldl (fun heap entry => heap.write entry.1 (copyBytes (heap entry.1) entry.2)) heap

/-- `EncryptObject` as `Seal` uses it: a constant it fails on stays as it is. -/
def encryptConstant (K : Keystream) (key : SealKey) (constant : Option (Object κ)) :
    Option (Object κ) :=
  match encryptObject K key constant with
  | .ok object => some object
  | .error _ => constant

/-- One turn of the loop over the constants: the entry and the functions after it. -/
def sealConstant (K : Keystream) (s : ReplSealer) (next : Nat) (heap : Heap) (i : Nat) :
    Option (Object κ) → Option (Object κ) × Heap
  | none => (none, heap)
  | some (.compiledFunction address) =>
    if i < s.sealed then (some (.compiledFunction address), heap)
    else if (heap address).length = 0 then (some (.compiledFunction address), heap)
    else
      match secureXOR K (heap address) next s.password with
      | .ok xored => (some (.compiledFunction address), heap.write address xored)
      | .error _ => (some (.compiledFunction address), heap)
  | some object => (encryptConstant K ⟨next, s.password⟩ (some object), heap)

/-- The loop over the constants from position `i` on. -/
def sealConstants (K : Keystream) (s : ReplSealer) (next : Nat) :
    Heap → Nat → List (Option (Object κ)) → List (Option (Object κ)) × Heap
  | heap, _, [] => ([], heap)
  | heap, i, constant :: rest =>
    let (object, heap) := sealConstant K s next heap i constant
    let (objects, heap) := sealConstants K s next heap (i + 1) rest
    (object :: objects, heap)

/-- What a call of `Seal` leaves: its result, the sealer and the functions. -/
structure Sealing (κ : Type) where
  result : Except Fault (ByteCode κ)
  sealer : ReplSealer
  heap : Heap

/-- What `Seal` writes once everything that can fail has been computed. -/
def sealWrites (K : Keystream) (s : ReplSealer) (heap : Heap) (byteCode : ByteCode κ)
    (entries : List (Nat × Bytes)) : Sealing κ :=
  let next := byteCode.instructions.length
  let instructions := (secureXOR K byteCode.instructions next s.password).toOption.getD
    byteCode.instructions
  let (constants, heap) := sealConstants K s next (writeBack heap entries) 0 byteCode.constants
  { result := .ok { instructions, constants }
    sealer := { s with seed := next, sealed := constants.length }
    heap }

/-- `ReplSealer.Seal`. -/
def ReplSealer.seal (K : Keystream) (s : ReplSealer) (heap : Heap) (byteCode : ByteCode κ) :
    Sealing κ :=
  if s.password = [] then ⟨.error (.error errReplSealerNoPassword), s, heap⟩
  else if s.sealed > byteCode.constants.length then
    ⟨.error (.error (errReplSealerPoolShrank ++
      s!": have {s.sealed} sealed, pool holds {byteCode.constants.length}")), s, heap⟩
  else
    let next : Int := byteCode.instructions.length
    match if next ≠ s.seed then rekeyed K s next heap 0 (byteCode.constants.take s.sealed)
      else .ok [] with
    | .error fault => ⟨.error fault, s, heap⟩
    | .ok entries => sealWrites K s heap byteCode entries

/-! ### A session -/

/-- A constant as a line's compiler makes it. -/
inductive NewConstant (κ : Type) where
  | function (body : Bytes)
  | scalar (value : Scalar κ)
  | absent
  deriving Repr, DecidableEq

/-- A line: its instructions and the constants it adds to the pool. -/
structure Line (κ : Type) where
  instructions : Bytes
  added : List (NewConstant κ)
  deriving Repr, DecidableEq

/-- The entry of a new constant at position `i`.  A function is an object of its own, and the
address of one made for position `i` is `i`. -/
def NewConstant.entry (i : Nat) : NewConstant κ → Option (Object κ)
  | .function _ => some (.compiledFunction i)
  | .scalar value => some (.scalar value)
  | .absent => none

/-- The entries of new constants from position `i` on. -/
def entries (i : Nat) : List (NewConstant κ) → List (Option (Object κ))
  | [] => []
  | constant :: rest => constant.entry i :: entries (i + 1) rest

/-- The functions among new constants from position `i` on, in plaintext. -/
def allocate (heap : Heap) (i : Nat) : List (NewConstant κ) → Heap
  | [] => heap
  | .function body :: rest => allocate (heap.write i body) (i + 1) rest
  | _ :: rest => allocate heap (i + 1) rest

/-- A session between two lines. -/
structure Session (κ : Type) where
  sealer : ReplSealer
  heap : Heap
  constants : List (Option (Object κ))
  /-- The constants as they were compiled, one for each entry of the pool. -/
  originals : List (NewConstant κ)

def newSession (password : Bytes) : Session κ := ⟨newReplSealer password, fun _ => [], [], []⟩

/-- The functions when a line has been compiled. -/
def Session.compiledHeap (session : Session κ) (line : Line κ) : Heap :=
  allocate session.heap session.constants.length line.added

/-- A line's bytecode: the compiler appends to the pool it is given. -/
def Session.byteCode (session : Session κ) (line : Line κ) : ByteCode κ :=
  ⟨line.instructions, session.constants ++ entries session.constants.length line.added⟩

/-- The line's call of `Seal`. -/
def Session.sealLine (K : Keystream) (session : Session κ) (line : Line κ) : Sealing κ :=
  session.sealer.seal K (session.compiledHeap line) (session.byteCode line)

/-- A line of the loop of the REPL: a line that is refused leaves the pool behind it. -/
def Session.step (K : Keystream) (session : Session κ) (line : Line κ) : Session κ :=
  let sealing := session.sealLine K line
  match sealing.result with
  | .ok byteCode =>
    ⟨sealing.sealer, sealing.heap, byteCode.constants, session.originals ++ line.added⟩
  | .error _ => { session with sealer := sealing.sealer, heap := sealing.heap }

/-- The session after the lines. -/
def session (K : Keystream) (password : Bytes) (lines : List (Line κ)) : Session κ :=
  lines.foldl (Session.step K) (newSession password)

/-! ### What a session is for -/

/-- Under the stream of a line of length `length`, the entry is what was compiled. -/
def Opens (K : Keystream) (password : Bytes) (length : Nat) (heap : Heap) :
    NewConstant κ → Option (Object κ) → Prop
  | .function body, constant => ∃ address, constant = some (.compiledFunction address) ∧
      if body = [] then heap address = []
      else secureXOR K (heap address) length password = .ok body
  | .scalar value, constant =>
    decryptObject K ⟨length, password⟩ constant = .ok (.scalar value)
  | .absent, constant => constant = none

/-- A call of `Seal` for a line over constants that were compiled as `originals`: where it
returns, every entry opens under the line's length, and where it fails the functions and the
sealer are what they were. -/
def SealKeeps (K : Keystream) (before : Session κ) (line : Line κ) : Prop :=
  let sealing := before.sealLine K line
  match sealing.result with
  | .ok byteCode => List.Forall₂
      (Opens K before.sealer.password line.instructions.length sealing.heap)
      (before.originals ++ line.added) byteCode.constants
  | .error _ => sealing.sealer = before.sealer ∧ sealing.heap = before.compiledHeap line

/-- `SealKeeps` at every line. -/
def SessionKeeps (K : Keystream) (password : Bytes) (lines : List (Line κ)) : Prop :=
  ∀ before line after, lines = before ++ line :: after →
    SealKeeps K (session K password before) line

/-! ### The condition -/

/-- A scalar another stream than its own can change: it has a payload, and it is not `false`,
which is what a boolean opens to whenever its bytes do not say `true`. -/
def Fragile : NewConstant κ → Prop
  | .scalar (.integer _) => True
  | .scalar (.float _) => True
  | .scalar (.boolean value) => value = true
  | .scalar (.string value) => value ≠ []
  | .scalar (.bytes value _) => value ≠ []
  | .scalar .null => False
  | .function _ => False
  | .absent => False

/-- The line has no instructions and adds a scalar that another stream can change: zero is
recorded as the seed, and a recorded zero counts as none. -/
def Line.Unrecorded (line : Line κ) : Prop :=
  line.instructions = [] ∧ ∃ constant ∈ line.added, Fragile constant

/-- After a line of that kind no line has instructions. -/
def LinesRecorded (lines : List (Line κ)) : Prop :=
  ∀ before line after, lines = before ++ line :: after →
    (∃ earlier ∈ before, earlier.Unrecorded) → line.instructions = []

end Mutant.Mutil
