import Mathlib.Data.Finset.Card
import Mutant.Lib.Narrowing

/-!
# Kinds of function parameters

Every use a function's body makes of one of its parameters narrows the kinds the parameter can have,
and a parameter passed on to another function can only have the kinds that function's parameter
can. A function is its identity, and `arity` is its number of parameters.
-/

namespace Mutant.Lsp

inductive ParamKind
  | string | bytes | int | float | bool | array | hash | fn | null | struct | enum | error
  deriving DecidableEq

/-- `kindSet`, whose bits are the kinds. -/
abbrev KindSet := Finset ParamKind

def ksAny : KindSet :=
  {.string, .bytes, .int, .float, .bool, .array, .hash, .fn, .null, .struct, .enum, .error}

/-- `bits.OnesCount16` of `ksAny`. -/
def kindSetWidth : ℕ := ksAny.card

variable {F : Type} (arity : F → ℕ)

/-- A function and an index into its parameters. -/
abbrev ParamSlot := Σ fn, Fin (arity fn)

/-- The `kinds` of every function. -/
abbrev Kinds := ParamSlot arity → KindSet

structure ParamUse (fn : F) where
  param : Fin (arity fn)
  allowed : KindSet
  /-- `target` and `targetParam`. -/
  target : Option (ParamSlot arity)

variable {arity} [DecidableEq F]

/-- The kinds a use allows, which for a flow are those of its target as they stand. -/
def ParamUse.allows {fn : F} (use : ParamUse arity fn) (kinds : Kinds arity) : KindSet :=
  match use.target with
  | some slot => kinds slot
  | none => use.allowed

/-- One turn of the loop of `applyUses`. -/
def applyUse {fn : F} (use : ParamUse arity fn) (kinds : Kinds arity) : Kinds arity × Bool :=
  let slot := ⟨fn, use.param⟩
  let narrowed := kinds slot ∩ use.allows kinds
  if narrowed ≠ kinds slot then (Function.update kinds slot narrowed, true) else (kinds, false)

variable (uses : (fn : F) → List (ParamUse arity fn))

def applyUses (fn : F) : Kinds arity → Kinds arity × Bool :=
  Narrowing.pass applyUse (uses fn)

variable (arity) in
def maxSolverRounds (order : List F) : ℕ :=
  order.foldl (fun rounds fn => rounds + arity fn * kindSetWidth) 1

/-- The rounds of `solveFunctionParams`: the kinds they leave, and whether they ended because
nothing changed. -/
def solveFunctionParams (order : List F) : Kinds arity × Bool :=
  Narrowing.settle (Narrowing.pass (applyUses uses) order) (maxSolverRounds arity order)
    fun _ => ksAny

end Mutant.Lsp
