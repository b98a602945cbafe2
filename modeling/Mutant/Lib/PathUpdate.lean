import Mutant.Lib.Result
/-!
# Replacing one part of a nested value

A value that holds others is read and written one hop at a time.  A write through several hops reads
the containers on the way in, writes the innermost one, and writes every container back into the one
around it (`replaceAt`).  Two values come out equal under one such write exactly when they differ at
most in the part it replaces (`replaceAt_eq_iff`).
-/

namespace PathUpdate

variable {V H E : Type}

/-- How a value is read and written at a hop. -/
structure Access (V H E : Type) where
  get : V → H → Except E V
  set : V → H → V → Except E V

namespace Access

variable (C : Access V H E)

/-- The part a path leads to. -/
def getAt (x : V) : List H → Except E V
  | [] => .ok x
  | h :: path => (C.get x h).bind fun inner => getAt inner path

/-- The value with the part a path leads to replaced. -/
def replaceAt (x : V) : List H → V → Except E V
  | [], v => .ok v
  | [h], v => C.set x h v
  | h :: path, v =>
    (C.get x h).bind fun inner => (replaceAt inner path v).bind (C.set x h)

@[simp] theorem getAt_cons (x : V) (h : H) (path : List H) :
    C.getAt x (h :: path) = (C.get x h).bind fun inner => C.getAt inner path := rfl

theorem getAt_concat (x : V) (path : List H) (h : H) :
    C.getAt x (path ++ [h]) = (C.getAt x path).bind fun inner => C.get inner h := by
  induction path generalizing x with
  | nil =>
    show (C.get x h).bind Except.ok = C.get x h
    cases C.get x h <;> rfl
  | cons g path ih =>
    simp only [List.cons_append, getAt_cons, Result.bind_bind, ih]

/-- A write through a path is the shallower write of the innermost container, written. -/
theorem replaceAt_concat (x : V) (path : List H) (h : H) (v : V) : C.replaceAt x (path ++ [h]) v =
      (C.getAt x path).bind fun inner => (C.set inner h v).bind (C.replaceAt x path) := by
  induction path generalizing x with
  | nil =>
    show C.set x h v = (C.set x h v).bind (C.replaceAt x [])
    cases C.set x h v <;> rfl
  | cons g path ih =>
    -- below a hop there is at least the last one, so the hop is read and written back
    have hcons : C.replaceAt x (g :: (path ++ [h])) v =
        (C.get x g).bind fun inner => (C.replaceAt inner (path ++ [h]) v).bind (C.set x g) := by
      cases path <;> rfl
    rw [List.cons_append, hcons, getAt_cons]
    cases hget : C.get x g with
    | error e => rfl
    | ok inner =>
      show (C.replaceAt inner (path ++ [h]) v).bind (C.set x g) =
        (C.getAt inner path).bind fun c => (C.set c h v).bind (C.replaceAt x (g :: path))
      rw [ih inner]
      cases C.getAt inner path with
      | error e => rfl
      | ok c =>
        show ((C.set c h v).bind (C.replaceAt inner path)).bind (C.set x g) =
          (C.set c h v).bind (C.replaceAt x (g :: path))
        cases C.set c h v with
        | error e => rfl
        | ok c' =>
          cases path with
          | nil => rfl
          | cons g' path =>
            show (C.replaceAt inner (g' :: path) c').bind (C.set x g) =
              (C.get x g).bind fun i => (C.replaceAt i (g' :: path) c').bind (C.set x g)
            rw [hget]
            rfl

/-! ### What a write leaves alone -/

variable {C} {SameBut : H → V → V → Prop}

/-- `SameBut h x y` says of two values that they are containers which differ at most at `h`: a write
at `h` makes them equal when it writes equal parts, and not otherwise. -/
def Tells (C : Access V H E) (SameBut : H → V → V → Prop) : Prop :=
  ∀ {x y u v a : V} {h : H}, C.set x h u = .ok a → (C.set y h v = .ok a ↔ SameBut h x y ∧ u = v)

/-- Two values differ at most in the part that a path leads to. -/
def AgreeOff (C : Access V H E) (SameBut : H → V → V → Prop) : List H → V → V → Prop
  | [], _, _ => True
  | [h], x, y => SameBut h x y
  | h :: path, x, y =>
    SameBut h x y ∧ ∃ x' y', C.get x h = .ok x' ∧ C.get y h = .ok y' ∧ AgreeOff C SameBut path x' y'

/-- Replacing at a path makes two values equal exactly when they agree off the path. -/
theorem replaceAt_eq_iff (hC : C.Tells SameBut) {path : List H} {x y v a : V}
    (hx : C.replaceAt x path v = .ok a) :
    C.replaceAt y path v = .ok a ↔ AgreeOff C SameBut path x y := by
  induction path generalizing x y a with
  | nil => exact iff_of_true hx trivial
  | cons h path ih =>
    cases path with
    | nil => exact (hC hx).trans (and_iff_left rfl)
    | cons h' path =>
      obtain ⟨x', hget, hx⟩ := Result.bind_eq_ok.mp hx
      obtain ⟨r, hr, hset⟩ := Result.bind_eq_ok.mp hx
      constructor
      · intro hy
        obtain ⟨y', hget', hy⟩ := Result.bind_eq_ok.mp hy
        obtain ⟨r', hr', hset'⟩ := Result.bind_eq_ok.mp hy
        obtain ⟨hsame, rfl⟩ := (hC hset).mp hset'
        exact ⟨hsame, x', y', hget, hget', (ih hr).mp hr'⟩
      · rintro ⟨hsame, x'', y', hget'', hget', hagr⟩
        obtain rfl : x' = x'' := Except.ok.inj (hget.symm.trans hget'')
        have hr' := (ih hr).mpr hagr
        exact Result.bind_eq_ok.mpr
          ⟨y', hget', Result.bind_eq_ok.mpr ⟨r, hr', (hC hset).mpr ⟨hsame, rfl⟩⟩⟩

end Access

end PathUpdate
