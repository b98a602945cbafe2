import Mathlib.Tactic.Common

/-!
# Computations whose outcome does not depend on their state

A computation that passes a state along, such as a table of what it has already worked out, settles
on an outcome when it has that outcome, or gives up, from every state of a kind, and leaves a state
of the kind.

* `bind`, `get_bind`, `map`: the rules for putting computations together.
-/

universe u

variable {σ ε α β : Type u} {inv : σ → Prop} {gives : ε → Prop}

/-- From every state with `inv` the computation has the outcome or gives up with an error of
`gives`, and leaves a state with `inv`. -/
def Settles (inv : σ → Prop) (gives : ε → Prop) (m : ExceptT ε (StateM σ) α)
    (outcome : Except ε α) : Prop :=
  ∀ s, inv s → ((∃ error, gives error ∧ (m.run.run s).1 = .error error) ∨
    (m.run.run s).1 = outcome) ∧ inv (m.run.run s).2

namespace Settles

variable {m : ExceptT ε (StateM σ) α} {f : α → ExceptT ε (StateM σ) β} {outcome : Except ε β}

theorem pure (a : α) : Settles inv gives (Pure.pure a) (.ok a) := fun _ hs => ⟨.inr rfl, hs⟩

theorem throw (error : ε) :
    Settles inv gives (MonadExcept.throw error : ExceptT ε (StateM σ) α) (.error error) :=
  fun _ hs => ⟨.inr rfl, hs⟩

theorem ofExcept (outcome : Except ε α) :
    Settles inv gives (ExceptT.mk (Pure.pure outcome)) outcome :=
  fun _ hs => ⟨.inr rfl, hs⟩

theorem run_bind (m : ExceptT ε (StateM σ) α) (f : α → ExceptT ε (StateM σ) β) (s : σ) :
    (m >>= f).run.run s =
      match (m.run.run s).1 with
      | .ok a => (f a).run.run (m.run.run s).2
      | .error error => (.error error, (m.run.run s).2) := by
  show (match (m.run.run s).1 with | .ok a => _ | .error e => _ : StateM σ (Except ε β)).run _ = _
  cases (m.run.run s).1 <;> rfl

/-- A computation after another one. -/
theorem bind {a : α} (hm : Settles inv gives m (.ok a))
    (hf : Settles inv gives (f a) outcome) : Settles inv gives (m >>= f) outcome := by
  intro s hs
  obtain ⟨hfst, hnext⟩ := hm s hs
  rw [run_bind]
  obtain ⟨error, hgives, herr⟩ | hok := hfst
  · rw [herr]
    exact ⟨.inl ⟨error, hgives, rfl⟩, hnext⟩
  · rw [hok]
    exact hf _ hnext

/-- What comes after an error is not run. -/
theorem bind_error {error : ε}
    (hm : Settles inv gives m (.error error)) : Settles inv gives (m >>= f) (.error error) := by
  intro s hs
  obtain ⟨hfst, hnext⟩ := hm s hs
  rw [run_bind]
  obtain ⟨given, hgives, hgiven⟩ | herr := hfst
  · rw [hgiven]
    exact ⟨.inl ⟨given, hgives, rfl⟩, hnext⟩
  · rw [herr]
    exact ⟨.inr rfl, hnext⟩

/-- A computation of which only the result is changed. -/
theorem map {outcome : Except ε α} (hm : Settles inv gives m outcome)
    (f : α → β) : Settles inv gives (m >>= fun a => Pure.pure (f a)) (outcome.map f) := by
  cases outcome with
  | error error => exact bind_error hm
  | ok a => exact bind hm (pure (f a))

/-- A computation that goes on from the state it finds. -/
theorem get_bind {f : σ → ExceptT ε (StateM σ) β}
    (hf : ∀ s, inv s → (((∃ error, gives error ∧ ((f s).run.run s).1 = .error error) ∨
      ((f s).run.run s).1 = outcome) ∧ inv ((f s).run.run s).2)) :
    Settles inv gives (MonadState.get >>= f) outcome := by
  intro s hs
  exact hf s hs

end Settles
