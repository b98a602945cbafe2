import Mutant.Lib.Varint

/-!
# Line tables

A model of `code/linetable.go`: the delta-encoded table that maps an offset in an instruction stream
to the source position that produced it, its lookup, its builder, and the rewriting of its offsets
after a pass has moved the instructions.  A Go `int` is an `Int64`.
-/

namespace Mutant.Code

open Varint

/-- `LineTable`: the encoded form; a table that records nothing has no bytes. -/
abbrev LineTable := List UInt8

/-- `lineEntry`: an offset and the position recorded for it. -/
structure LineEntry where
  ip : Int64
  line : Int64
  col : Int64
deriving DecidableEq, Repr

/-- The entry before the first, from which the first deltas are taken. -/
def LineEntry.zero : LineEntry := ⟨0, 0, 0⟩

/-- One round of the loop of `forEach`: the entry at the front of the bytes, after the entry
`last`. -/
def readEntry (last : LineEntry) (bytes : List UInt8) : Option (LineEntry × List UInt8) := do
  let (ipDelta, bytes) ← uvarint bytes
  let (lineDelta, bytes) ← varint bytes
  let (colDelta, bytes) ← varint bytes
  return (⟨last.ip + ipDelta.toInt64, last.line + lineDelta, last.col + colDelta⟩, bytes)

/-- `forEach`: the entries in the order they are visited.  A malformed entry ends the walk; `fuel`
bounds the entries read. -/
def entriesFrom : (fuel : Nat) → LineEntry → List UInt8 → List LineEntry
  | 0, _, _ => []
  | fuel + 1, last, bytes =>
    match readEntry last bytes with
    | none => []
    | some (entry, rest) => entry :: entriesFrom fuel entry rest

/-- The entries of a table. -/
def LineTable.entries (t : LineTable) : List LineEntry := entriesFrom t.length .zero t

/-- The position at `ip` among the entries: that of the last one before the walk meets an entry
past `ip`; an entry without a line is a reset and covers nothing. -/
def positionAt (entries : List LineEntry) (ip : Int64) : Option (Int64 × Int64) :=
  match (entries.takeWhile fun entry => !(ip < entry.ip)).getLast? with
  | none => none
  | some entry => if entry.line ≤ 0 then none else some (entry.line, entry.col)

/-- `LineTable.At`. -/
def LineTable.at (t : LineTable) (ip : Int64) : Option (Int64 × Int64) :=
  if t.isEmpty ∨ ip < 0 then none else positionAt t.entries ip

/-- `LineTableBuilder`. -/
structure LineTableBuilder where
  buf : List UInt8 := []
  last : LineEntry := .zero
  started : Bool := false

namespace LineTableBuilder

/-- The bytes of an entry after the entry `last`. -/
def entryBytes (last entry : LineEntry) : List UInt8 :=
  putUvarint (entry.ip - last.ip).toUInt64 ++ putVarint (entry.line - last.line) ++
    putVarint (entry.col - last.col)

/-- `LineTableBuilder.add`. -/
def put (b : LineTableBuilder) (entry : LineEntry) : LineTableBuilder :=
  if entry.ip < 0 then b
  else if b.started ∧ entry.ip < b.last.ip then b
  else if b.started ∧ entry.line = b.last.line ∧ entry.col = b.last.col then b
  else ⟨b.buf ++ entryBytes b.last entry, entry, true⟩

/-- `LineTableBuilder.Add`. -/
def add (b : LineTableBuilder) (entry : LineEntry) : LineTableBuilder :=
  if entry.line ≤ 0 then b else b.put entry

/-- `LineTableBuilder.AddOrReset`. -/
def addOrReset (b : LineTableBuilder) (entry : LineEntry) : LineTableBuilder :=
  if entry.line ≤ 0 then if b.started then b.put ⟨entry.ip, 0, 0⟩ else b
  else b.put entry

/-- `LineTableBuilder.Build`. -/
def build (b : LineTableBuilder) : LineTable := b.buf

end LineTableBuilder

/-- What `Remap` does with an entry: it is moved to where `offsets` sends it, or dropped. -/
def moveEntry (offsets : List (Int64 × Int64)) (b : LineTableBuilder) (entry : LineEntry) :
    LineTableBuilder :=
  match offsets.lookup entry.ip with
  | some moved => b.addOrReset { entry with ip := moved }
  | none => b

/-- `LineTable.Remap`; `none` stands for a nil map. -/
def LineTable.remap (t : LineTable) : Option (List (Int64 × Int64)) → LineTable
  | none => []
  | some offsets =>
    if t.isEmpty then [] else (t.entries.foldl (moveEntry offsets) ({} : LineTableBuilder)).build

/-! ### Tables made by the builder -/

/-- A call of the builder. -/
inductive Call
  | add (entry : LineEntry)
  | addOrReset (entry : LineEntry)

/-- The entry a call is about. -/
def Call.entry : Call → LineEntry
  | .add entry | .addOrReset entry => entry

/-- What a call does. -/
def Call.run (b : LineTableBuilder) : Call → LineTableBuilder
  | .add entry => b.add entry
  | .addOrReset entry => b.addOrReset entry

/-- The table was made by the builder, with calls at these offsets. -/
def RecordedAt (at_ : Int64 → Prop) (t : LineTable) : Prop :=
  ∃ calls : List Call, (∀ c ∈ calls, at_ c.entry.ip) ∧
    t = (calls.foldl Call.run ({} : LineTableBuilder)).build

end Mutant.Code
