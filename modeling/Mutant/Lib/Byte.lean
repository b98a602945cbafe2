import Mathlib.Tactic.Common

/-!
# Bytes

What can be decided about a byte can be decided about all of them.
-/

instance UInt8.decidableForall {p : UInt8 → Prop} [DecidablePred p] : Decidable (∀ b, p b) :=
  decidable_of_iff (∀ n : Fin 256, p ⟨⟨n⟩⟩) ⟨fun h b => h b.toBitVec.toFin, fun h _ => h _⟩
