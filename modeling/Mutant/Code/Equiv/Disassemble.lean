import Mutant.Code.Disassemble

/-!
# What disassembly shows

`Instructions.String` comes back exactly if every opcode it stands on is defined
(`string_terminates_iff`), and then shows a stream that was made of instructions as those
instructions.
-/

namespace Mutant.Code

open List

variable {op : Opcode} {fuel i : Nat} {bytes : List Nat}

/-! ### Operands -/

@[simp] theorem ofByte?_byte (op : Opcode) : Opcode.ofByte? op.byte = some op := by
  cases op <;> rfl

theorem Opcode.width_cases (op : Opcode) : ∀ width ∈ op.operandWidths, width = 1 ∨ width = 2 := by
  cases op <;> simp [operandWidths]

@[simp] theorem length_operandBytes (width operand : Nat) :
    (operandBytes width operand).length = width := by
  induction width generalizing operand with
  | zero => rfl
  | succ width ih => rw [operandBytes, length_append, ih, length_singleton]

theorem readOperand_operandBytes {width operand : Nat} (hwd : width = 1 ∨ width = 2)
    (h : operand ≤ maxOperand width) : readOperand (operandBytes width operand) = operand := by
  rcases hwd with rfl | rfl <;> simp [maxOperand] at h <;>
    simp [readOperand, operandBytes] <;> omega

section

variable {ops widths : List Nat}
  (h : Forall₂ (fun operand width => operand ≤ maxOperand width) ops widths)

include h

theorem length_operands :
    (zipWith operandBytes widths ops).flatten.length = widths.foldr (· + ·) 0 := by
  induction h with
  | nil => rfl
  | cons _ _ ih =>
    rw [zipWith_cons_cons, flatten_cons, length_append, length_operandBytes, ih, foldr_cons]

/-- Operands are read back, whatever follows them. -/
theorem readOperands_append (hwidths : ∀ width ∈ widths, width = 1 ∨ width = 2) (rest : List Nat) :
    readOperands widths ((zipWith operandBytes widths ops).flatten ++ rest) =
      (ops, widths.foldr (· + ·) 0) := by
  induction h with
  | nil => rfl
  | @cons operand width ops widths hfits _ ih =>
    obtain ⟨hwd, hwidths⟩ := forall_mem_cons.mp hwidths
    have hlen := length_operandBytes width operand
    rw [zipWith_cons_cons, flatten_cons, append_assoc, readOperands,
      if_neg (by rw [length_append]; omega), drop_left' hlen, take_left' hlen, ih hwidths,
      readOperand_operandBytes hwd hfits]
    rfl

end

/-- `ReadOperands` inverts `Make`. -/
theorem Instr.Fits.readOperands {i : Instr} (h : i.Fits) (rest : List Nat) :
    readOperands i.op.operandWidths (i.bytes.tail ++ rest) =
      (i.operands, i.op.operandWidths.foldr (· + ·) 0) :=
  readOperands_append h i.op.width_cases rest

/-! ### The scan -/

/-- Every opcode is defined that the scan stands on, the first after `skip` bytes. -/
def ScansDefined : (skip : Nat) → List Nat → Prop
  | _, [] => True
  | skip + 1, _ :: bytes => ScansDefined skip bytes
  | 0, b :: bytes =>
    match Opcode.ofByte? b with
    | none => False
    | some op => ScansDefined (readOperands op.operandWidths bytes).2 bytes

theorem scansDefined_drop (skip : Nat) (bytes : List Nat) :
    ScansDefined skip bytes ↔ ScansDefined 0 (bytes.drop skip) := by
  induction bytes generalizing skip with
  | nil => cases skip <;> exact Iff.rfl
  | cons b bytes ih =>
    cases skip with
    | zero => exact Iff.rfl
    | succ skip => exact ih skip

/-- What comes back has stood on defined opcodes only. -/
theorem scansDefined_of_stringFrom {text : String} (h : stringFrom fuel i bytes = some text) :
    ScansDefined 0 bytes := by
  induction fuel generalizing i bytes text with
  | zero =>
    cases bytes with
    | nil => trivial
    | cons b bytes => cases h
  | succ fuel ih =>
    cases bytes with
    | nil => trivial
    | cons b bytes =>
      cases hop : Opcode.ofByte? b with
      | none =>
        -- the turn left the loop where it was
        rw [stringFrom, hop] at h
        obtain ⟨text, hrest, -⟩ := Option.map_eq_some_iff.mp h
        exact ih hrest
      | some op =>
        rw [stringFrom, hop] at h
        obtain ⟨text, hrest, -⟩ := Option.map_eq_some_iff.mp h
        rw [ScansDefined, hop]
        exact (scansDefined_drop _ _).mpr (ih hrest)

/-- With defined opcodes each turn gets further, so as many turns as bytes are enough. -/
theorem exists_stringFrom (h : ScansDefined 0 bytes) (hfuel : bytes.length ≤ fuel) (i : Nat) :
    ∃ text, stringFrom fuel i bytes = some text := by
  induction fuel generalizing i bytes with
  | zero =>
    obtain rfl := eq_nil_of_length_eq_zero (Nat.le_zero.mp hfuel)
    exact ⟨"", rfl⟩
  | succ fuel ih =>
    cases bytes with
    | nil => exact ⟨"", rfl⟩
    | cons b bytes =>
      cases hop : Opcode.ofByte? b with
      | none =>
        rw [ScansDefined, hop] at h
        exact h.elim
      | some op =>
        rw [ScansDefined, hop] at h
        -- a defined opcode is passed with its operands
        have hlen : (bytes.drop (readOperands op.operandWidths bytes).2).length ≤ fuel := by
          rw [length_cons] at hfuel
          rw [length_drop]
          omega
        obtain ⟨text, htext⟩ := ih ((scansDefined_drop _ _).mp h) hlen _
        rw [stringFrom, hop]
        exact ⟨_, congrArg (Option.map _) htext⟩

/-! ### Streams of instructions -/

/-- The text that shows each instruction at its offset. -/
def listing (is : List (Nat × Instr)) : String :=
  is.foldr (fun x text => instructionLine x.1 x.2.op x.2.operands ++ text) ""

/-- A stream made of instructions is listed as those. -/
theorem stringFrom_encode {is : Instructions} (h : ∀ i ∈ is, i.Fits) (hfuel : is.length ≤ fuel)
    (start : Nat) : stringFrom fuel start (encode is) = some (listing (layout start is)) := by
  induction is generalizing start fuel with
  | nil => cases fuel <;> rfl
  | cons i is ih =>
    obtain ⟨hi, his⟩ := forall_mem_cons.mp h
    obtain ⟨fuel, rfl⟩ := Nat.exists_eq_add_of_le' (Nat.one_le_of_lt hfuel)
    have hrest : (i.bytes.tail ++ encode is).drop (i.op.operandWidths.foldr (· + ·) 0) = encode is :=
      drop_left' (length_operands hi)
    show stringFrom (fuel + 1) start (i.op.byte :: (i.bytes.tail ++ encode is)) = _
    rw [stringFrom, ofByte?_byte]
    simp only [hi.readOperands, hrest, ih his (Nat.le_of_succ_le_succ hfuel), Nat.add_assoc start]
    rfl

/-! ### Main result -/

/-- The loop ends exactly if every opcode it stands on is defined; a stream that `Make` wrote is shown
as its instructions, each at its offset, and `ReadOperands` inverts `Make`. -/
theorem string_terminates_iff (bytes : List Nat) :
    ((∃ fuel text, stringFrom fuel 0 bytes = some text) ↔ ScansDefined 0 bytes) ∧
      (∀ (is : List { i : Instr // i.Fits }) (fuel : Nat), is.length ≤ fuel →
        stringFrom fuel 0 (encode (is.map (·.1))) = some (listing (layout 0 (is.map (·.1))))) ∧
      ∀ (i : { i : Instr // i.Fits }) (rest : List Nat),
        readOperands i.1.op.operandWidths (i.1.bytes.tail ++ rest) =
          (i.1.operands, i.1.op.operandWidths.foldr (· + ·) 0) := by
  refine ⟨⟨?_, fun h => ⟨_, exists_stringFrom h (Nat.le_refl _) 0⟩⟩, ?_, ?_⟩
  · rintro ⟨fuel, text, h⟩
    exact scansDefined_of_stringFrom h
  · intro is fuel hfuel
    refine stringFrom_encode ?_ (by rwa [length_map]) 0
    exact forall_mem_map.mpr fun i _ => i.2
  · exact fun i rest => i.2.readOperands rest

/-- One undefined opcode, and the loop never moves past it. -/
theorem string_undefined : ¬ ∃ fuel text, stringFrom fuel 0 [0xFF] = some text := by
  rintro ⟨fuel, text, h⟩
  exact scansDefined_of_stringFrom h

end Mutant.Code
