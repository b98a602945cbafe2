import Mutant.Mutil.ReplSeal
import Mutant.Mutil.Equiv.SealedValue
import Mathlib.Data.List.Forall2

/-!
# What a session of sealed lines keeps

Between two lines every function of the pool is its plaintext under the stream of the length the
sealer records, and every scalar is sealed under the length of the line that added it.

* `sealConstants_at`: what the seal of a line does to a function of the pool;
* `writeBack_apply`: what is moved to a new stream.
-/

namespace Mutant.Mutil

open List
open BlockStream (cover length_cover)
open Mutant.Security (Bytes)

variable {i : Nat} {constants : List (Option (Object κ))}

variable {κ : Type}

/-! ### Phase one and phase two -/

/-- The body of a function under the stream of `next`, when it is under that of `seed`. -/
def moved (K : Keystream) (s : ReplSealer) (next : Int) (body : Bytes) : Bytes :=
  cover (K next s.password) 0 (cover (K s.seed s.password) 0 body)

section

variable (K : Keystream) (s : ReplSealer) (next : Int)

/-- A body that is not empty is moved from the old stream to the new one. -/
theorem rekeyBody_of_ne_nil (i : Nat) {body : Bytes} (h : body ≠ []) :
    rekeyBody K s next i body = .ok (moved K s next body) := by
  have hpl : cover (K s.seed s.password) 0 body ≠ [] := by
    intro hnil
    have hlen := length_cover (K s.seed s.password) 0 body
    rw [hnil] at hlen
    exact h (length_eq_zero_iff.mp hlen.symm)
  rw [rekeyBody, secureXOR_of_ne_nil K h]
  show (secureXOR K _ next s.password).mapError _ = _
  rw [secureXOR_of_ne_nil K hpl]
  rfl

/-- What phase one computes for a constant. -/
def rekeyEntry (K : Keystream) (s : ReplSealer) (next : Int) (heap : Heap) :
    Option (Object κ) → Option (Nat × Bytes)
  | some (.compiledFunction address) =>
    if (heap address).length = 0 then none else some (address, moved K s next (heap address))
  | _ => none

variable {K s next} in
theorem rekeyEntry_eq_some {heap : Heap} {con : Option (Object κ)} {e : Nat × Bytes} :
    rekeyEntry K s next heap con = some e ↔
      con = some (.compiledFunction e.1) ∧ heap e.1 ≠ [] ∧
        moved K s next (heap e.1) = e.2 := by
  fun_cases rekeyEntry K s next heap con <;> grind

/-- Phase one does not fail. -/
theorem rekeyed_eq (heap : Heap) (i : Nat) (constants : List (Option (Object κ))) :
    rekeyed K s next heap i constants = .ok (constants.filterMap (rekeyEntry K s next heap)) := by
  fun_induction rekeyed K s next heap i constants with
  | case1 => rfl
  | case2 i addr rest hemp ih => rw [ih, filterMap_cons, rekeyEntry, if_pos hemp]
  | case3 i addr rest hemp ih =>
    rw [rekeyBody_of_ne_nil K s next i (mt length_eq_zero_iff.mpr hemp), ih, filterMap_cons,
      rekeyEntry, if_neg hemp]
    rfl
  | case4 i con rest hoth ih =>
    rw [ih, filterMap_cons_none]
    exact Option.eq_none_iff_forall_ne_some.mpr fun _ h => hoth _ (rekeyEntry_eq_some.mp h).1

end

theorem copyBytes_of_length {dst src : Bytes} (h : src.length = dst.length) :
    copyBytes dst src = src := by
  rw [copyBytes, ← h, take_length, h, drop_length, append_nil]

/-- Phase two, for entries that say `f` of the address they name. -/
theorem writeBack_apply {f : Nat → Bytes} {ents : List (Nat × Bytes)}
    (hents : ∀ entry ∈ ents, entry.2 = f entry.1) {heap : Heap}
    (hlen : ∀ a, (f a).length = (heap a).length) (a : Nat) :
    writeBack heap ents a = if a ∈ ents.map Prod.fst then f a else heap a := by
  induction ents generalizing heap with
  | nil => simp [writeBack]
  | cons entry rest ih =>
    have hcopy : copyBytes (heap entry.1) entry.2 = f entry.1 := by
      rw [hents entry (mem_cons_self ..), copyBytes_of_length (hlen entry.1)]
    have hstep : writeBack heap (entry :: rest) = writeBack (heap.write entry.1 (f entry.1)) rest := by
      rw [writeBack, foldl_cons, hcopy]
      rfl
    -- a body keeps its length, so a later write fits as well
    have hwr : ∀ b, (f b).length = (heap.write entry.1 (f entry.1) b).length := by
      intro b
      rw [Heap.write]
      split
      · next hb => rw [hb]
      · exact hlen b
    rw [hstep, ih (forall_mem_cons.mp hents).2 hwr]
    by_cases hrest : a ∈ rest.map Prod.fst
    · simp only [map_cons, mem_cons, hrest, or_true, if_true]
    · simp only [map_cons, mem_cons, hrest, or_false, if_false, Heap.write]
      split
      · next ha => rw [ha]
      · rfl

open Classical in
/-- The functions after both phases: those among the constants are under the next stream. -/
theorem writeBack_rekeyed (K : Keystream) (s : ReplSealer) (next : Int) (heap : Heap)
    (constants : List (Option (Object κ))) (a : Nat) :
    writeBack heap (constants.filterMap (rekeyEntry K s next heap)) a =
      if some (.compiledFunction a) ∈ constants then moved K s next (heap a) else heap a := by
  have hmem : a ∈ (constants.filterMap (rekeyEntry K s next heap)).map Prod.fst ↔
      some (.compiledFunction a) ∈ constants ∧ heap a ≠ [] := by
    simp [rekeyEntry_eq_some]
  have hents : ∀ e ∈ constants.filterMap (rekeyEntry K s next heap),
      e.2 = moved K s next (heap e.1) := by
    intro e hent
    obtain ⟨_, -, hent⟩ := mem_filterMap.mp hent
    exact (rekeyEntry_eq_some.mp hent).2.2.symm
  rw [writeBack_apply (f := fun b => moved K s next (heap b)) hents (by simp [moved])]
  simp only [hmem]
  by_cases hemp : heap a = []
  · simp [hemp, moved]
  · simp only [hemp, ne_eq, not_false_eq_true, and_true]

/-! ### The loop over the constants -/

section

variable (K : Keystream) (s : ReplSealer) (next : Nat) (heap : Heap)

/-- The entry a turn leaves does not depend on the functions. -/
theorem sealConstant_fst (i : Nat) (constant : Option (Object κ)) :
    (sealConstant K s next heap i constant).1 = encryptConstant K ⟨next, s.password⟩ constant := by
  fun_cases sealConstant K s next heap i constant <;> rfl

open Classical in
/-- A turn covers the function it meets, if it is not one of an earlier line. -/
theorem sealConstant_snd (i : Nat) (con : Option (Object κ)) (a : Nat) :
    (sealConstant K s next heap i con).2 a =
      if con = some (.compiledFunction a) ∧ ¬ i < s.sealed then
        cover (K next s.password) 0 (heap a)
      else heap a := by
  fun_cases sealConstant K s next heap i con with
  | case1 => simp
  -- a function of an earlier line is not sealed again
  | case2 addr hold => simp [hold]
  | case3 addr hold hemp =>
    by_cases ha : addr = a
    · simp [← ha, length_eq_zero_iff.mp hemp]
    · simp [ha]
  | case4 addr hold hemp xored hxor =>
    rw [secureXOR_of_ne_nil K (mt length_eq_zero_iff.mpr hemp)] at hxor
    cases hxor
    by_cases ha : a = addr
    · simp [Heap.write, ha, hold]
    · simp [Heap.write, ha, Ne.symm ha]
  | case5 addr hold hemp fault hxor =>
    rw [secureXOR_of_ne_nil K (mt length_eq_zero_iff.mpr hemp)] at hxor
    cases hxor
  | case6 object hoth =>
    rw [if_neg]
    rintro ⟨⟨⟩, -⟩
    exact hoth a rfl

theorem sealConstants_fst (i : Nat) (constants : List (Option (Object κ))) :
    (sealConstants K s next heap i constants).1 =
      constants.map (encryptConstant K ⟨next, s.password⟩) := by
  induction constants generalizing heap i with
  | nil => rfl
  | cons con rest ih =>
    rw [map_cons, ← sealConstant_fst K s next heap i con,
      ← ih (sealConstant K s next heap i con).2 (i + 1)]
    rfl

/-- A function at position `i + j` is the object at that address. -/
def Addressed (i : Nat) (constants : List (Option (Object κ))) : Prop :=
  ∀ j address, constants[j]? = some (some (.compiledFunction address)) → address = i + j

theorem Addressed.tail {con : Option (Object κ)} {rest}
    (h : Addressed i (con :: rest)) : Addressed (i + 1) rest := by
  intro j addr hj
  have := h (j + 1) addr (by rw [getElem?_cons_succ]; exact hj)
  omega

theorem sealConstants_snd_cons (i : Nat) (con : Option (Object κ)) (rest) :
    (sealConstants K s next heap i (con :: rest)).2 =
      (sealConstants K s next (sealConstant K s next heap i con).2 (i + 1) rest).2 := rfl

/-- The loop leaves the functions before it alone. -/
theorem sealConstants_before (h : Addressed i constants) {a : Nat} (ha : a < i) :
    (sealConstants K s next heap i constants).2 a = heap a := by
  induction constants generalizing heap i with
  | nil => rfl
  | cons con rest ih =>
    rw [sealConstants_snd_cons, ih _ h.tail (by omega), sealConstant_snd, if_neg]
    rintro ⟨rfl, -⟩
    have := h 0 a rfl
    omega

/-- The loop covers the functions of the line and leaves those of earlier lines alone. -/
theorem sealConstants_at (h : Addressed i constants) {j : Nat}
    (hj : constants[j]? = some (some (.compiledFunction (i + j)))) :
    (sealConstants K s next heap i constants).2 (i + j) =
      if i + j < s.sealed then heap (i + j) else cover (K next s.password) 0 (heap (i + j)) := by
  induction constants generalizing heap i j with
  | nil => cases hj
  | cons con rest ih =>
    rw [sealConstants_snd_cons]
    cases j with
    | zero =>
      obtain rfl : con = some (.compiledFunction i) := Option.some.inj hj
      simp only [Nat.add_zero]
      rw [sealConstants_before K s next _ h.tail (by omega), sealConstant_snd]
      by_cases hold : i < s.sealed
      · rw [if_neg (fun hboth => hboth.2 hold), if_pos hold]
      · rw [if_pos ⟨rfl, hold⟩, if_neg hold]
    | succ j =>
      have hshift : i + (j + 1) = i + 1 + j := by omega
      rw [hshift] at hj
      -- each function has an address of its own
      have hskip : (sealConstant K s next heap i con).2 (i + 1 + j) = heap (i + 1 + j) := by
        rw [sealConstant_snd, if_neg]
        rintro ⟨rfl, -⟩
        have := h 0 _ rfl
        omega
      rw [hshift, ih _ h.tail hj, hskip]

end

/-! ### A line's constants -/

/-- The entries of a line, by number. -/
theorem entries_getElem? (i : Nat) (added : List (NewConstant κ)) (j : Nat) :
    (entries i added)[j]? = added[j]?.map (NewConstant.entry (i + j)) := by
  induction added generalizing i j with
  | nil => rfl
  | cons con rest ih =>
    cases j with
    | zero => rfl
    | succ j =>
      rw [entries, getElem?_cons_succ, ih, getElem?_cons_succ]
      congr 2
      omega

@[simp] theorem length_entries (i : Nat) (added : List (NewConstant κ)) :
    (entries i added).length = added.length := by
  induction added generalizing i with
  | nil => rfl
  | cons con rest ih => rw [entries, length_cons, ih, length_cons]

/-- What a line adds leaves the older addresses alone. -/
theorem allocate_before (heap : Heap) (added : List (NewConstant κ)) {a : Nat}
    (ha : a < i) : allocate heap i added a = heap a := by
  induction added generalizing heap i with
  | nil => rfl
  | cons con rest ih =>
    match con with
    | .function body =>
      rw [allocate, ih _ (by omega), Heap.write, if_neg (by omega)]
    | .scalar _ => exact ih heap (by omega)
    | .absent => exact ih heap (by omega)

/-- A new function's object holds its plaintext. -/
theorem allocate_at (heap : Heap) (i : Nat) {added : List (NewConstant κ)} {j : Nat} {body : Bytes}
    (hj : added[j]? = some (.function body)) : allocate heap i added (i + j) = body := by
  induction added generalizing heap i j with
  | nil => cases hj
  | cons con rest ih =>
    cases j with
    | zero =>
      obtain rfl : con = .function body := Option.some.inj hj
      rw [allocate, allocate_before _ rest (by omega), Heap.write, if_pos (by omega)]
    | succ j =>
      have hshift : i + (j + 1) = i + 1 + j := by omega
      rw [hshift]
      match con with
      | .function _ => exact ih _ (i + 1) hj
      | .scalar _ => exact ih _ (i + 1) hj
      | .absent => exact ih _ (i + 1) hj

end Mutant.Mutil
