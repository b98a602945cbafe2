import Mutant.Lib.Base64

/-!
# Base64 values of Sigma rules

`|base64offset` looks for a value inside a base64 text without knowing where it starts there, so it
looks for the characters that the value settles at each of the three offsets.
-/

namespace Mutant.Builtin

/-- `sigmaBase64Offsets`. -/
def sigmaBase64Offsets (value : List UInt8) : List (List UInt8) :=
  (List.range 3).map fun i =>
    let encoded := Base64.encode (List.replicate i 32 ++ value)
    let start := min ([0, 2, 3].getD i 0) encoded.length
    -- the source adds a negative number, and an end before the start is the start
    let stop := max start (encoded.length - [0, 3, 2].getD ((value.length + i) % 3) 0)
    (encoded.take stop).drop start

end Mutant.Builtin
