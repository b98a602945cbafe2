/-!
# The builtin `range`

The loop counts in 64 bits, and stops when it has appended one element more than the limit.
-/

namespace Mutant.Builtin

/-- The most elements `range` returns. -/
def maxRange : Nat := 10000000

/-- A loop of `Range`, over the numbers of which `before` holds.  `room` more are taken, and a
further one is refused. -/
def rangeLoop (before : Int64 → Bool) (step : Int64) :
    (room : Nat) → (i : Int64) → Except String (List Int64)
  | 0, i => if before i then .error s!"range: exceeds maximum length {maxRange}" else .ok []
  | room + 1, i =>
    if before i then (rangeLoop before step room (i + step)).map (i :: ·) else .ok []

/-- `Range`, on a start, an end and a step. -/
def range (start stop step : Int64) : Except String (List Int64) :=
  if step = 0 then .error "range: step must not be zero"
  else if 0 < step then rangeLoop (fun i => i < stop) step maxRange start
  else rangeLoop (fun i => stop < i) step maxRange start

end Mutant.Builtin
