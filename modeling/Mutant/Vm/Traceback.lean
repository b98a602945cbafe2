import Mathlib.Algebra.GroupWithZero.Nat

/-!
# Collapsing a traceback

A stack of calls is printed with each cycle of frames once, followed by how many times it repeats,
and without its middle when it is still too long.  The functions that take an index into the frames
take the frames from that index on.
-/

namespace Mutant.Vm

def maxCycleLength : Nat := 8

def minCycleRepeats : Nat := 3

def maxRenderedFrames : Nat := 40

structure TracebackFrame where
  function : String := ""
  file : String := ""
  line : Int := 0
  column : Int := 0
  absLine : Int := 0
  endLine : Int := 0
  endColumn : Int := 0
  args : List String := []
  macroLine : Int := 0
  macroColumn : Int := 0

def TracebackFrame.sameSite (f other : TracebackFrame) : Bool :=
  f.function == other.function && f.file == other.file && f.line == other.line &&
    f.column == other.column

/-- A line of the report: a frame, or one of the two notes, by what it says. -/
inductive TracebackEntry where
  | frame (frame : TracebackFrame)
  | repeated (length more : Nat)
  | omitted (count : Nat)

/-- The text of a note. -/
def TracebackEntry.note : TracebackEntry → String
  | .frame _ => ""
  | .repeated length more =>
    let noun := if 1 < length then toString length ++ " frames" else "frame"
    "... previous " ++ noun ++ " repeated " ++ toString more ++ " more times ..."
  | .omitted count => "... " ++ toString count ++ " frames omitted ..."

variable (frames : List TracebackFrame)

def runsMatch (b length : Nat) : Bool :=
  (frames.take length).zip ((frames.drop b).take length) |>.all fun (f, g) => f.sameSite g

/-- The inner loop of `cycleAt`: how often the first `length` frames come one after the other. -/
def repeatsAt (length : Nat) : (fuel count : Nat) → Nat
  | 0, count => count
  | fuel + 1, count =>
    let next := length * count
    if frames.length < next + length || !runsMatch frames next length then count
    else repeatsAt length fuel (count + 1)

def cycleAt : Nat × Nat :=
  let lengths := (List.range' 1 maxCycleLength).takeWhile (· ≤ frames.length)
  let cycles := lengths.map fun length => (length, repeatsAt frames length frames.length 1)
  (cycles.find? fun (_, count) => minCycleRepeats ≤ count).getD (1, 1)

/-- The loop of `collapseCycles`. -/
def collapseFrom : (fuel : Nat) → List TracebackFrame → List TracebackEntry
  | _, [] => []
  | 0, _ :: _ => []
  | fuel + 1, frame :: rest =>
    let (length, repeats) := cycleAt (frame :: rest)
    if repeats < minCycleRepeats then .frame frame :: collapseFrom fuel rest
    else
      ((frame :: rest).take length).map .frame ++ .repeated length (repeats - 1) ::
        collapseFrom fuel ((frame :: rest).drop (length * repeats))

def truncateEntries (entries : List TracebackEntry) : List TracebackEntry :=
  if entries.length ≤ maxRenderedFrames then entries
  else
    let head := maxRenderedFrames * 3 / 4
    let tail := maxRenderedFrames - head
    let omitted := entries.length - head - tail
    entries.take head ++ .omitted omitted :: entries.drop (entries.length - tail)

/-- The entries before `truncateEntries`. -/
def collapsed : List TracebackEntry := collapseFrom frames.length frames

def collapseCycles : List TracebackEntry := truncateEntries (collapsed frames)

end Mutant.Vm
