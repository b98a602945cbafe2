import Mutant.Lib.Json.Struct
import Mutant.Security.Primitives

/-!
# Reading files that are verified

A model of `security/json_keys.go` and of how the record and grant files use `encoding/json`: a file
is one document with nothing but white space after it (`RefuseTrailingContent`), it is decoded over a
structure that is empty, with unknown fields refused, and in a grant no object names a field twice
(`RefuseRepeatedKeys`).
-/

namespace Mutant.Security

/-- `objectFrame`: an object that is open, the names seen in it, and whether a name is next. -/
structure ObjectFrame where
  names : List Bytes
  expectName : Bool

/-- A value is complete, so an enclosing object is owed a name next. -/
def completeValue : List (Option ObjectFrame) → List (Option ObjectFrame)
  | some frame :: outer => some { frame with expectName := true } :: outer
  | opened => opened

/-- The loop of `RefuseRepeatedKeys`: the first name that an object has twice.  The containers open
around the tokens are listed innermost first, arrays as nothing; the decoder hands out neither
colons nor commas. -/
def repeatedKeyFrom : (opened : List (Option ObjectFrame)) → List Json.Token → Option Bytes
  | _, [] => none
  | opened, token :: rest =>
    match token with
    | .colon => repeatedKeyFrom opened rest
    | .comma => repeatedKeyFrom opened rest
    | .openObject => repeatedKeyFrom (some ⟨[], true⟩ :: opened) rest
    | .openArray => repeatedKeyFrom (none :: opened) rest
    | .closeObject =>
      if opened.tail.isEmpty then none else repeatedKeyFrom (completeValue opened.tail) rest
    | .closeArray =>
      if opened.tail.isEmpty then none else repeatedKeyFrom (completeValue opened.tail) rest
    | .string name =>
      match opened with
      | some ⟨names, true⟩ :: outer =>
        if name ∈ names then some name
        else repeatedKeyFrom (some ⟨name :: names, false⟩ :: outer) rest
      | _ => if opened.isEmpty then none else repeatedKeyFrom (completeValue opened) rest
    | _ => if opened.isEmpty then none else repeatedKeyFrom (completeValue opened) rest

/-- `RefuseRepeatedKeys`, on a text that was decoded. -/
def repeatedKey (data : Bytes) : Option Bytes := (Json.lex data).bind (repeatedKeyFrom [])

/-- `Decoder.Decode` with unknown fields refused, and `RefuseTrailingContent` after it. -/
def decodeFile {σ : Type} (fields : List (Json.Field σ)) (empty : σ) (data : Bytes) : Option σ :=
  (Json.decode data).bind fun document => Json.decodeStruct fields document empty

end Mutant.Security
