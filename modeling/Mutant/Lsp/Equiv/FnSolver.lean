import Mathlib.Algebra.BigOperators.Group.Finset.Basic
import Mathlib.Algebra.GroupWithZero.Nat
import Mathlib.Algebra.Order.BigOperators.Group.Finset
import Mathlib.Algebra.Order.BigOperators.Group.List
import Mutant.Lsp.FnSolver

/-!
# The solver finds the largest kinds

An assignment of kinds is a solution when every use allows the kinds of the parameter it is a use
of. The rounds end in the largest one, whatever order the functions are visited in.

* `narrows_round`: a round is a pass of demands;
* `solveFunctionParams_greatest`: the answer is the largest solution.
-/

namespace Mutant.Lsp

open Narrowing

variable {F : Type} {arity : F → ℕ}

/-- Every use allows the kinds of its parameter. -/
def Solves (uses : (fn : F) → List (ParamUse arity fn)) (kinds : Kinds arity) : Prop :=
  ∀ fn, ∀ use ∈ uses fn, kinds ⟨fn, use.param⟩ ⊆ use.allows kinds

theorem subset_ksAny (kinds : KindSet) : kinds ⊆ ksAny := fun kind _ => by cases kind <;> decide

theorem ParamUse.allows_mono {fn : F} (use : ParamUse arity fn) : Monotone use.allows := by
  intro kinds kinds' hle
  cases h : use.target with
  | some slot => simpa only [allows, h] using hle slot
  | none => simp only [allows, h, le_refl]

/-- The bits set in the kinds of the functions of `order`. -/
def weight (order : List F) (kinds : Kinds arity) : ℕ :=
  (order.map fun fn => ∑ i, (kinds ⟨fn, i⟩).card).sum

theorem weight_strictMono {order : List F} (hord : ∀ fn, fn ∈ order) :
    StrictMono (weight order : Kinds arity → ℕ) := by
  intro kinds kinds' hlt
  obtain ⟨hle, ⟨fn, i⟩, hslot⟩ := Pi.lt_def.mp hlt
  have hcard (fn) (i : Fin (arity fn)) : (kinds ⟨fn, i⟩).card ≤ (kinds' ⟨fn, i⟩).card :=
    Finset.card_le_card (hle ⟨fn, i⟩)
  exact List.sum_lt_sum _ _ (fun fn _ => Finset.sum_le_sum fun i _ => hcard fn i)
    ⟨fn, hord fn, Finset.sum_lt_sum (fun i _ => hcard fn i)
      ⟨i, Finset.mem_univ i, Finset.card_lt_card hslot⟩⟩

/-- The bound on the rounds is one more than all the kinds that can be taken away. -/
theorem maxSolverRounds_eq (order : List F) :
    maxSolverRounds arity order = weight order (fun _ => ksAny : Kinds arity) + 1 := by
  have hfold (rounds : ℕ) : order.foldl (fun rounds fn => rounds + arity fn * kindSetWidth) rounds =
      weight order (fun _ => ksAny : Kinds arity) + rounds := by
    induction order generalizing rounds with
    | nil => simp [weight]
    | cons fn order ih =>
      simp only [List.foldl_cons, ih]
      simp [weight, kindSetWidth]
      omega
  exact hfold 1

section

variable [DecidableEq F] (uses : (fn : F) → List (ParamUse arity fn))

/-- A use takes away exactly the kinds it does not allow. -/
theorem narrows_applyUse {fn : F} (use : ParamUse arity fn) (kinds : Kinds arity) :
    Narrows (fun kinds => kinds ⟨fn, use.param⟩ ⊆ use.allows kinds) kinds (applyUse use kinds) := by
  rw [applyUse]
  split_ifs with hne
  · refine ⟨update_le_self_iff.mpr Finset.inter_subset_left, ?_, fun _ heq => ?_, nofun⟩
    · intro kinds' hsol hle
      refine le_update_iff.mpr ⟨?_, fun slot _ => hle slot⟩
      exact Finset.subset_inter (hle _) (hsol.trans (use.allows_mono hle))
    · exact hne (Function.update_eq_self_iff.mp heq)
  · refine ⟨le_rfl, fun _ _ hle => hle, nofun, fun _ => ⟨rfl, ?_⟩⟩
    exact Finset.inter_eq_left.mp (not_not.mp hne)

theorem narrows_round {order : List F} (hord : ∀ fn, fn ∈ order) (kinds : Kinds arity) :
    Narrows (Solves uses) kinds (pass (applyUses uses) order kinds) := by
  have h := narrows_pass (fun fn => narrows_pass narrows_applyUse (uses fn)) order kinds
  simp only [hord, true_implies] at h
  exact h

/-- The rounds end because nothing changes, in the largest solution, which the order the functions
are visited in does not change. -/
theorem solveFunctionParams_greatest (order : List F) (horder : ∀ fn, fn ∈ order) :
    (solveFunctionParams uses order).2 = true ∧
      IsGreatest {kinds | Solves uses kinds} (solveFunctionParams uses order).1 ∧
      ∀ order', order'.Perm order →
        (solveFunctionParams uses order').1 = (solveFunctionParams uses order).1 := by
  have hall (order : List F) (horder : ∀ fn, fn ∈ order) :
      IsGreatest {kinds | Solves uses kinds} (solveFunctionParams uses order).1 ∧
        (solveFunctionParams uses order).2 = true := by
    have h := settle_greatest (narrows_round uses horder) (weight_strictMono horder)
      (maxSolverRounds_eq order).symm.le
    have htop (kinds : Kinds arity) : kinds ≤ fun _ => ksAny := fun _ => subset_ksAny _
    simp only [htop, and_true] at h
    exact h
  obtain ⟨hgreatest, hend⟩ := hall order horder
  refine ⟨hend, hgreatest, fun order' hperm => ?_⟩
  exact (hall order' fun fn => hperm.mem_iff.mpr (horder fn)).1.unique hgreatest

end

/-- Two functions that pass their parameter to each other, one of which also subtracts from it. -/
def mutualUses : (fn : Bool) → List (ParamUse (fun _ => 1) fn)
  | false => [⟨0, ∅, some ⟨true, 0⟩⟩]
  | true => [⟨0, {.int, .float}, none⟩, ⟨0, ∅, some ⟨false, 0⟩⟩]

theorem solveFunctionParams_mutualUses :
    (solveFunctionParams mutualUses [false, true]).1 = (fun _ => {.int, .float}) ∧
      IsGreatest {kinds | Solves mutualUses kinds} fun _ => {.int, .float} := by
  have h := (solveFunctionParams_greatest mutualUses [false, true] (by decide)).2.1
  have heq : (solveFunctionParams mutualUses [false, true]).1 = fun _ => {.int, .float} := by
    funext ⟨fn, i⟩
    revert fn
    decide
  exact ⟨heq, heq ▸ h⟩

end Mutant.Lsp
