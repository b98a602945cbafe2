import Mathlib.Tactic.Common
import Mutant.Code.Opcode
/-!
# Where the instructions of a stream are

Instructions have different sizes, and everything that names one names its byte offset.
`At is p i` says that instruction `i` starts at offset `p`; `modifyAt` and `truncateAt` are the two
ways the compiler edits a stream it has already written.

* `at_append`, `at_modifyAt`: where instructions are after an edit;
* `truncateAt_append`: cutting back what was appended.
-/

namespace Mutant.Code

open List

variable {p : Nat} {i : Instr} {is : Instructions}

/-- The instructions of a stream with their offsets, the first at `start`. -/
def layout (start : Nat) : Instructions → List (Nat × Instr)
  | [] => []
  | i :: is => (start, i) :: layout (start + i.size) is

/-- Instruction `i` starts at offset `p`. -/
def At (is : Instructions) (p : Nat) (i : Instr) : Prop := (p, i) ∈ layout 0 is

instance (is : Instructions) (p : Nat) (i : Instr) : Decidable (At is p i) :=
  inferInstanceAs (Decidable ((p, i) ∈ layout 0 is))

/-- The offsets an instruction pointer may hold: the start of an instruction, or the end. -/
def Boundary (is : Instructions) (p : Nat) : Prop := p = codeSize is ∨ ∃ i, At is p i

/-- Applies `f` to the instruction that starts `offset` bytes into the stream. -/
def modifyAt (f : Instr → Instr) : (offset : Nat) → Instructions → Instructions
  | _, [] => []
  | offset, i :: is =>
    if offset = 0 then f i :: is
    else if i.size ≤ offset then i :: modifyAt f (offset - i.size) is
    else i :: is

/-- Keeps the instructions that start before `offset`. -/
def truncateAt : (offset : Nat) → Instructions → Instructions
  | _, [] => []
  | offset, i :: is => if offset = 0 then [] else i :: truncateAt (offset - i.size) is

/-! ### Sizes -/

theorem Instr.size_pos (i : Instr) : 0 < i.size := by
  rw [Instr.size]
  omega

@[simp] theorem codeSize_nil : codeSize [] = 0 := rfl

@[simp] theorem codeSize_cons (i : Instr) (is : Instructions) :
    codeSize (i :: is) = i.size + codeSize is := rfl

@[simp] theorem codeSize_append (is js : Instructions) :
    codeSize (is ++ js) = codeSize is + codeSize js := by
  induction is with
  | nil => simp
  | cons i is ih => simp [ih, Nat.add_assoc]

/-! ### Layouts -/

theorem layout_append (start : Nat) (is js : Instructions) :
    layout start (is ++ js) = layout start is ++ layout (start + codeSize is) js := by
  induction is generalizing start with
  | nil => simp [layout]
  | cons i is ih => simp [layout, ih, Nat.add_assoc]

/-- A layout that starts elsewhere is moved as a whole. -/
theorem mem_layout_start {start : Nat} :
    (p, i) ∈ layout start is ↔ ∃ q, p = start + q ∧ At is q i := by
  induction is generalizing start p with
  | nil => simp [layout, At]
  | cons j is ih =>
    simp only [layout, At, mem_cons, Prod.mk.injEq, Nat.zero_add]
    constructor
    · rintro (⟨rfl, rfl⟩ | h)
      · exact ⟨0, rfl, .inl ⟨rfl, rfl⟩⟩
      · obtain ⟨q, rfl, hq⟩ := ih.mp h
        exact ⟨j.size + q, by omega, .inr (ih.mpr ⟨q, rfl, hq⟩)⟩
    · rintro ⟨q, rfl, ⟨rfl, rfl⟩ | h⟩
      · exact .inl ⟨rfl, rfl⟩
      · obtain ⟨r, rfl, hr⟩ := ih.mp h
        exact .inr (ih.mpr ⟨r, by omega, hr⟩)

theorem at_cons {j : Instr} :
    At (i :: is) p j ↔ (p = 0 ∧ j = i) ∨ ∃ q, p = i.size + q ∧ At is q j := by
  unfold At
  rw [layout, mem_cons, mem_layout_start, Prod.mk.injEq]
  simp only [Nat.zero_add]
  rfl

theorem not_at_nil : ¬ At [] p i := by simp [At, layout]

theorem at_append {js : Instructions} :
    At (is ++ js) p i ↔ At is p i ∨ ∃ q, p = codeSize is + q ∧ At js q i := by
  unfold At
  rw [layout_append, mem_append, Nat.zero_add]
  exact or_congr_right mem_layout_start

/-- The last instruction starts where the code before it ends. -/
theorem at_concat {j : Instr} : At (is ++ [j]) p i ↔ At is p i ∨ (p = codeSize is ∧ i = j) := by
  rw [at_append]
  simp only [at_cons, not_at_nil]
  constructor
  · rintro (h | ⟨q, rfl, ⟨rfl, rfl⟩ | ⟨_, _, h⟩⟩)
    · exact .inl h
    · exact .inr ⟨rfl, rfl⟩
    · exact h.elim
  · rintro (h | ⟨rfl, rfl⟩)
    · exact .inl h
    · exact .inr ⟨0, rfl, .inl ⟨rfl, rfl⟩⟩

/-- An instruction lies inside its stream. -/
theorem At.add_size_le (h : At is p i) : p + i.size ≤ codeSize is := by
  induction is generalizing p with
  | nil => exact absurd h not_at_nil
  | cons j is ih =>
    rcases at_cons.mp h with ⟨rfl, rfl⟩ | ⟨q, rfl, hq⟩
    · simp
    · have := ih hq
      simp only [codeSize_cons]
      omega

theorem At.lt (h : At is p i) : p < codeSize is := by
  have := h.add_size_le
  have := i.size_pos
  omega

/-- Two instructions that overlap are the same one. -/
theorem At.unique {j : Instr} (hi : At is p i) (hj : At is p j) : i = j := by
  induction is generalizing p with
  | nil => exact absurd hi not_at_nil
  | cons k is ih =>
    have hk := k.size_pos
    rcases at_cons.mp hi with ⟨rfl, rfl⟩ | ⟨q, rfl, hq⟩
    · rcases at_cons.mp hj with ⟨-, rfl⟩ | ⟨r, hr, -⟩
      · rfl
      · omega
    · rcases at_cons.mp hj with ⟨hr, -⟩ | ⟨r, hr, hr'⟩
      · omega
      · obtain rfl : q = r := by omega
        exact ih hq hr'

theorem At.append_left {js : Instructions} (h : At is p i) :
    At (is ++ js) p i := at_append.mpr (.inl h)

/-! ### Boundaries -/

theorem boundary_codeSize (is : Instructions) : Boundary is (codeSize is) := .inl rfl

theorem Boundary.le (h : Boundary is p) : p ≤ codeSize is := by
  rcases h with rfl | ⟨i, hi⟩
  · exact Nat.le_refl _
  · exact Nat.le_of_lt hi.lt

/-- A boundary stays one when the stream grows. -/
theorem Boundary.append (h : Boundary is p) (js : Instructions) : Boundary (is ++ js) p := by
  rcases h with rfl | ⟨i, hi⟩
  · cases js with
    | nil => simpa using boundary_codeSize is
    | cons j js => exact .inr ⟨j, at_append.mpr (.inr ⟨0, rfl, at_cons.mpr (.inl ⟨rfl, rfl⟩)⟩)⟩
  · exact .inr ⟨i, hi.append_left⟩

/-! ### Editing -/

section modifyAt

variable {f : Instr → Instr} (hf : ∀ i, (f i).size = i.size)

include hf

theorem codeSize_modifyAt (p : Nat) (is : Instructions) :
    codeSize (modifyAt f p is) = codeSize is := by
  induction is generalizing p with
  | nil => rfl
  | cons i is ih =>
    unfold modifyAt
    split_ifs <;> simp [hf, ih]

/-- The edited instruction is `f` of what was there, and the others are what they were. -/
theorem at_modifyAt {q : Nat} :
    At (modifyAt f p is) q i ↔ (q ≠ p ∧ At is q i) ∨ (q = p ∧ ∃ j, At is p j ∧ i = f j) := by
  induction is generalizing p q with
  | nil => simp [modifyAt, not_at_nil]
  | cons k is ih =>
    have hk := k.size_pos
    unfold modifyAt
    -- this instruction, a later one, or an offset inside this one
    split_ifs with h0 hle
    · subst h0
      rw [at_cons, at_cons, hf]
      constructor
      · rintro (⟨rfl, rfl⟩ | ⟨r, rfl, hr⟩)
        · exact .inr ⟨rfl, k, at_cons.mpr (.inl ⟨rfl, rfl⟩), rfl⟩
        · exact .inl ⟨by omega, .inr ⟨r, rfl, hr⟩⟩
      · rintro (⟨hne, ⟨rfl, rfl⟩ | ⟨r, rfl, hr⟩⟩ | ⟨rfl, j, hj, rfl⟩)
        · exact absurd rfl hne
        · exact .inr ⟨r, rfl, hr⟩
        · rcases at_cons.mp hj with ⟨-, rfl⟩ | ⟨r, hr, -⟩
          · exact .inl ⟨rfl, rfl⟩
          · omega
    · obtain ⟨r, rfl⟩ := Nat.exists_eq_add_of_le hle
      rw [Nat.add_sub_cancel_left]
      simp only [at_cons, ih]
      constructor
      · rintro (⟨rfl, rfl⟩ | ⟨t, rfl, ⟨hne, ht⟩ | ⟨rfl, j, hj, rfl⟩⟩)
        · exact .inl ⟨by omega, .inl ⟨rfl, rfl⟩⟩
        · exact .inl ⟨by omega, .inr ⟨t, rfl, ht⟩⟩
        · exact .inr ⟨rfl, j, .inr ⟨t, rfl, hj⟩, rfl⟩
      · rintro (⟨hne, ⟨rfl, rfl⟩ | ⟨t, rfl, ht⟩⟩ | ⟨rfl, j, ⟨h, -⟩ | ⟨t, ht, hj⟩, rfl⟩)
        · exact .inl ⟨rfl, rfl⟩
        · exact .inr ⟨t, rfl, .inl ⟨by omega, ht⟩⟩
        · omega
        · obtain rfl : r = t := by omega
          exact .inr ⟨r, rfl, .inr ⟨rfl, j, hj, rfl⟩⟩
    · simp only [at_cons]
      constructor
      · rintro (⟨rfl, rfl⟩ | ⟨r, rfl, hr⟩)
        · exact .inl ⟨by omega, .inl ⟨rfl, rfl⟩⟩
        · exact .inl ⟨by omega, .inr ⟨r, rfl, hr⟩⟩
      · rintro (⟨-, h⟩ | ⟨rfl, j, ⟨h, -⟩ | ⟨r, hr, -⟩, -⟩)
        · exact h
        · omega
        · omega

/-- A change that keeps the size of an instruction moves no boundary. -/
theorem boundary_modifyAt {q : Nat} : Boundary (modifyAt f p is) q ↔ Boundary is q := by
  unfold Boundary
  rw [codeSize_modifyAt hf]
  refine or_congr_right ⟨?_, ?_⟩
  · rintro ⟨i, hi⟩
    rcases (at_modifyAt hf).mp hi with ⟨-, h⟩ | ⟨rfl, j, hj, -⟩
    · exact ⟨i, h⟩
    · exact ⟨j, hj⟩
  · rintro ⟨i, hi⟩
    by_cases hq : q = p
    · subst hq
      exact ⟨f i, (at_modifyAt hf).mpr (.inr ⟨rfl, i, hi, rfl⟩)⟩
    · exact ⟨i, (at_modifyAt hf).mpr (.inl ⟨hq, hi⟩)⟩

end modifyAt

section map

variable {f : Instr → Instr} (hf : ∀ i, (f i).size = i.size) {is : Instructions} {p : Nat}

include hf

theorem codeSize_map : codeSize (is.map f) = codeSize is := by
  induction is with
  | nil => rfl
  | cons i is ih => simp [hf, ih]

/-- Rewriting every instruction in place. -/
theorem at_map : At (is.map f) p i ↔ ∃ j, At is p j ∧ i = f j := by
  induction is generalizing p with
  | nil => simp [not_at_nil]
  | cons k is ih =>
    simp only [map_cons, at_cons, ih, hf]
    constructor
    · rintro (⟨rfl, rfl⟩ | ⟨q, rfl, j, hj, rfl⟩)
      · exact ⟨k, .inl ⟨rfl, rfl⟩, rfl⟩
      · exact ⟨j, .inr ⟨q, rfl, hj⟩, rfl⟩
    · rintro ⟨j, ⟨rfl, rfl⟩ | ⟨q, rfl, hj⟩, rfl⟩
      · exact .inl ⟨rfl, rfl⟩
      · exact .inr ⟨q, rfl, j, hj, rfl⟩

theorem boundary_map : Boundary (is.map f) p ↔ Boundary is p := by
  simp only [Boundary, codeSize_map hf, at_map hf]
  constructor
  · rintro (h | ⟨_, j, hj, -⟩)
    · exact .inl h
    · exact .inr ⟨j, hj⟩
  · rintro (h | ⟨j, hj⟩)
    · exact .inl h
    · exact .inr ⟨_, j, hj, rfl⟩

end map

/-- Editing past a prefix leaves the prefix. -/
theorem modifyAt_append (f : Instr → Instr) (q : Nat) (is js : Instructions) :
    modifyAt f (codeSize is + q) (is ++ js) = is ++ modifyAt f q js := by
  induction is with
  | nil => simp
  | cons i is ih =>
    have hi := i.size_pos
    rw [cons_append, modifyAt, if_neg (by simp only [codeSize_cons]; omega),
      if_pos (by simp only [codeSize_cons]; omega)]
    simp only [codeSize_cons, cons_append, cons.injEq, true_and]
    rw [← ih]
    congr 1
    omega

theorem truncateAt_append (is js : Instructions) : truncateAt (codeSize is) (is ++ js) = is := by
  induction is with
  | nil => cases js <;> simp [truncateAt]
  | cons i is ih =>
    have hi := i.size_pos
    rw [cons_append, truncateAt, if_neg (by simp only [codeSize_cons]; omega)]
    simp [ih]

end Mutant.Code
