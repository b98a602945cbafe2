import Mutant.Lib.Replacer
import Mutant.Security.Primitives

/-!
# Defanged indicators

`defang` and `refang` of `builtin/ioc_builtins.go`.
-/

namespace Mutant.Builtin

open Mutant.Security (Bytes text)

/-- `Defang`: three replacements, one after the other. -/
def defang (s : Bytes) : Bytes :=
  let out := Replacer.replace [(text "http", text "hxxp")] s
  let out := Replacer.replace [(text ".", text "[.]")] out
  Replacer.replace [(text "@", text "[at]")] out

def defangMarkers : List (Bytes × Bytes) :=
  [(text "[.]", text "."), (text "(.)", text "."), (text "\x7b.\x7d", text "."),
   (text "[dot]", text "."), (text "(dot)", text "."), (text "hxxps", text "https"),
   (text "hxxp", text "http"), (text "hXXp", text "http"), (text "[at]", text "@"),
   (text "(at)", text "@"), (text "[@]", text "@"), (text "[:]", text ":"),
   (text "[://]", text "://"), (text "[/]", text "/")]

/-- The pairs of `refangReplacer`. -/
def refangPairs : List (Bytes × Bytes) :=
  defangMarkers ++ [(text " dot ", text "."), (text " at ", text "@")]

/-- `Refang`. -/
def refang (s : Bytes) : Bytes := Replacer.replace refangPairs s

end Mutant.Builtin
