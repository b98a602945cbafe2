import Mathlib.Data.List.Forall2

/-!
# Computations that end in a value or an error

* `ok_of_bind`, `ok_of_map`: taking a success apart;
* `mapM_eq_ok_iff`, `rel_of_foldlM`: the same of loops.
-/

namespace Result

open List

variable {ε α β γ : Type}

theorem ok_bind (a : α) (f : α → Except ε β) : (Except.ok a).bind f = f a := rfl

theorem error_bind (e : ε) (f : α → Except ε β) : (Except.error e).bind f = .error e := rfl

theorem map_map (x : Except ε α) (f : α → β) (g : β → γ) :
    (x.map f).map g = x.map fun a => g (f a) := by
  cases x <;> rfl

theorem map_bind (x : Except ε α) (f : α → Except ε β) (g : β → γ) :
    (x.bind f).map g = x.bind fun a => (f a).map g := by
  cases x <;> rfl

theorem bind_map (x : Except ε α) (f : α → β) (g : β → Except ε γ) :
    (x.map f).bind g = x.bind fun a => g (f a) := by
  cases x <;> rfl

theorem bind_bind (x : Except ε α) (f : α → Except ε β) (g : β → Except ε γ) :
    (x.bind f).bind g = x.bind fun a => (f a).bind g := by
  cases x <;> rfl

variable {x : Except ε α} {f : α → Except ε β}

theorem bind_eq_ok {b : β} : x.bind f = .ok b ↔ ∃ a, x = .ok a ∧ f a = .ok b := by
  cases x <;> simp [Except.bind]

theorem ite_error_eq_ok {p : Prop} [Decidable p] {e : ε} {a : α} :
    (if p then .error e else x) = .ok a ↔ ¬ p ∧ x = .ok a := by
  split <;> simp [*]

/-- A sequence that ends in a value: so does its first part, and the rest from there. -/
theorem ok_of_bind {b : β} (h : x >>= f = .ok b) : ∃ a, x = .ok a ∧ f a = .ok b := by
  cases x with
  | error fault => cases h
  | ok a => exact ⟨a, rfl, h⟩

theorem ok_of_map {f : α → β} {b : β} (h : x.map f = .ok b) : ∃ a, x = .ok a ∧ f a = b := by
  cases x with
  | error fault => cases h
  | ok a => exact ⟨a, rfl, Except.ok.inj h⟩

theorem ok_of_mapError {ε' : Type} {f : ε → ε'} {a : α} (h : x.mapError f = .ok a) : x = .ok a := by
  cases x with
  | error fault => cases h
  | ok a => exact congrArg _ (Except.ok.inj h)

/-- A loop that is written as a recursion. -/
theorem eq_mapM {F : List α → Except ε (List β)} (hnil : F [] = .ok [])
    (hcons : ∀ a l, F (a :: l) = (f a).bind fun b => (F l).map (b :: ·)) (l : List α) :
    F l = l.mapM f := by
  induction l with
  | nil => exact hnil
  | cons a l ih =>
    rw [hcons, ih, mapM_cons]
    cases f a with
    | error e => rfl
    | ok b => cases l.mapM f <;> rfl

variable {l : List α} {l' : List β}

/-- A loop over a list, turn by turn. -/
theorem mapM_eq_ok_iff : l.mapM f = .ok l' ↔ List.Forall₂ (fun a b => f a = .ok b) l l' := by
  induction l generalizing l' with
  | nil =>
    rw [forall₂_nil_left_iff]
    exact ⟨fun hl => (Except.ok.inj hl).symm, fun hl => hl ▸ rfl⟩
  | cons a rest ih =>
    rw [mapM_cons, forall₂_cons_left_iff]
    constructor
    · intro hl
      obtain ⟨b, hb, hl⟩ := ok_of_bind hl
      obtain ⟨others, hrest, hl⟩ := ok_of_bind hl
      exact ⟨b, others, hb, ih.mp hrest, (Except.ok.inj hl).symm⟩
    · rintro ⟨b, others, hb, hrest, rfl⟩
      rw [hb, ih.mpr hrest]
      rfl

theorem mapM_eq_ok {g : α → β} (h : ∀ a ∈ l, f a = .ok (g a)) : l.mapM f = .ok (l.map g) :=
  mapM_eq_ok_iff.mpr (forall₂_map_right_iff.mpr (forall₂_same.mpr h))

/-- What holds of every turn of a loop over a list holds of the lists element by element. -/
theorem forall₂_of_mapM {R : α → β → Prop} (h : ∀ a b, f a = .ok b → R a b)
    (hl : l.mapM f = .ok l') : List.Forall₂ R l l' :=
  (mapM_eq_ok_iff.mp hl).imp h

/-- A loop ends in a value when every turn does. -/
theorem exists_mapM (h : ∀ a ∈ l, ∃ b, f a = .ok b) : ∃ l', l.mapM f = .ok l' := by
  induction l with
  | nil => exact ⟨[], rfl⟩
  | cons a rest ih =>
    obtain ⟨⟨b, hb⟩, h⟩ := forall_mem_cons.mp h
    obtain ⟨others, hrest⟩ := ih h
    exact ⟨b :: others, mapM_eq_ok_iff.mpr (.cons hb (mapM_eq_ok_iff.mp hrest))⟩

/-- Every turn of a loop that ends in a value does. -/
theorem exists_of_mapM (hl : l.mapM f = .ok l') : ∀ a ∈ l, ∃ b, f a = .ok b := by
  induction mapM_eq_ok_iff.mp hl with
  | nil => nofun
  | cons hb hrest ih =>
    exact forall_mem_cons.mpr ⟨⟨_, hb⟩, ih (mapM_eq_ok_iff.mpr hrest)⟩

/-- The results of a loop. -/
theorem mem_mapM (hl : l.mapM f = .ok l') {b : β} : b ∈ l' ↔ ∃ a ∈ l, f a = .ok b := by
  induction mapM_eq_ok_iff.mp hl with
  | nil => simp
  | cons hb hrest ih => simp [ih (mapM_eq_ok_iff.mpr hrest), hb, eq_comm]

/-- A relation that every turn of a loop keeps to holds of the whole loop. -/
theorem rel_of_foldlM {R : α → α → Prop} (hrefl : ∀ a, R a a)
    (htrans : ∀ a b c, R a b → R b c → R a c) {f : α → β → Except ε α}
    (h : ∀ a x b, f a x = .ok b → R a b) {l : List β} {a b : α} (hl : l.foldlM f a = .ok b) :
    R a b := by
  induction l generalizing a with
  | nil =>
    rw [← Except.ok.inj hl]
    exact hrefl a
  | cons x l ih =>
    obtain ⟨c, hc, hl⟩ := ok_of_bind hl
    exact htrans a c b (h a x c hc) (ih hl)

end Result
