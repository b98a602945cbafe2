import Mutant.Builtin.Equiv.Json

/-!
# The text check over a document

The text of a document is text without a quote and, between quotes, strings, each spelled by units:
bytes that stand for themselves, short escapes, and escaped code units.  `jsonTextCheck` accepts
such a text exactly when it is UTF-8 and the surrogates that its strings escape come in pairs.

* `jsonScan_units`, `jsonScan_parts`: the scan over a string, and over a text;
* `jsonTextCheck_iff_paired`: what the check accepts.
-/

namespace Mutant.Builtin

open List
open Mutant.Security (Bytes text)

/-- One unit of a string's text. -/
inductive Spelling
  | byte (b : UInt8)
  | short (e : UInt8)
  | code (a b c d : UInt8)

namespace Spelling

def text : Spelling → Bytes
  | byte b => [b]
  | short e => [0x5C, e]
  | code a b c d => [0x5C, 0x75, a, b, c, d]

/-- The code unit that is escaped. -/
def unit? : Spelling → Option Nat
  | code a b c d => Json.hex4? [a, b, c, d]
  | _ => none

def Good : Spelling → Prop
  | byte b => 0x20 ≤ b.toNat ∧ b ≠ 0x22 ∧ b ≠ 0x5C
  | short e => (Json.shortUnescape? e).isSome
  | code a b c d => (Json.hex4? [a, b, c, d]).isSome

end Spelling

/-- Surrogates come in pairs: an escape of a high half is followed at once by one of a low half, and
there are no others. -/
def Paired : List Spelling → Prop
  | [] => True
  | u :: units =>
    match u.unit? with
    | none => Paired units
    | some n =>
      if isHigh n then
        match units with
        | [] => False
        | low :: units => low.unit?.any isLow ∧ Paired units
      else ¬ isLow n ∧ Paired units

/-- A part of a document's text. -/
inductive Part
  | outside (l : Bytes)
  | string (units : List Spelling)

namespace Part

def text : Part → Bytes
  | outside l => l
  | string units => 0x22 :: (units.flatMap Spelling.text ++ [0x22])

def Good : Part → Prop
  | outside l => ∀ b ∈ l, b ≠ 0x22
  | string units => ∀ u ∈ units, u.Good

def Pairs : Part → Prop
  | outside _ => True
  | string units => Paired units

end Part

/-! ### One string -/

variable {units : List Spelling}

/-- The escape at the front of a string's text is that of its first unit. -/
theorem jsonEscapeUnit_flatMap (h : ∀ u ∈ units, u.Good) (rest : Bytes) :
    jsonEscapeUnit (units.flatMap Spelling.text ++ 0x22 :: rest) =
      units.head?.bind Spelling.unit? := by
  cases units with
  | nil => rfl
  | cons u units =>
    have hu := h u mem_cons_self
    cases u with
    | byte b =>
      unfold jsonEscapeUnit
      split
      next heq => exact absurd (cons.inj heq).1 hu.2.2
      · rfl
    | short e =>
      unfold jsonEscapeUnit
      split
      next heq =>
        obtain ⟨rfl, -⟩ := cons.inj (cons.inj heq).2
        cases hu
      · rfl
    | code a b c d => rfl

/-- A unit that names no code unit is passed over. -/
theorem jsonScan_unit {u : Spelling} (h : ∀ v ∈ u :: units, v.Good)
    (hnone : u.unit? = none) (rest : Bytes) :
    jsonScan 0 true ((u :: units).flatMap Spelling.text ++ 0x22 :: rest) =
      jsonScan 0 true (units.flatMap Spelling.text ++ 0x22 :: rest) := by
  have hescape := jsonEscapeUnit_flatMap h rest
  have hu := h u mem_cons_self
  rw [flatMap_cons, append_assoc] at hescape ⊢
  cases u with
  | byte b => exact jsonScan_plain (forall_mem_singleton.mpr hu.2) _
  | short e =>
    change jsonScan 0 true (0x5C :: ([e] ++ _)) = _
    refine jsonScan_escape ?_
    show (match jsonEscapeUnit (Spelling.text (.short e) ++ _) with | none => _ | some _ => _) = _
    rw [hescape]
    rfl
  | code a b c d =>
    rw [Spelling.Good, ← Spelling.unit?, hnone] at hu
    cases hu

/-- A unit that names one is passed over alone, with the one after it, or refused. -/
theorem jsonScan_code {u : Spelling} {n : Nat} (hsome : u.unit? = some n) (tail : Bytes) :
    jsonScan 0 true (u.text ++ tail) =
      if isHigh n then
        if (jsonEscapeUnit tail).any isLow then jsonScan 6 true tail else false
      else if isLow n then false
      else jsonScan 0 true tail := by
  cases u with
  | byte b => cases hsome
  | short e => cases hsome
  | code a b c d =>
    have hunit : jsonEscapeUnit (0x5C :: 0x75 :: a :: b :: c :: d :: tail) = some n := hsome
    show jsonScan 0 true (0x5C :: 0x75 :: a :: b :: c :: d :: tail) = _
    rw [jsonScan, if_neg (by decide), if_pos rfl, escapeSkip, hunit]
    dsimp only
    rw [show (0x5C :: 0x75 :: a :: b :: c :: d :: tail).drop 6 = tail from rfl]
    split_ifs <;> rfl

/-- The scan passes a string whose surrogates are paired. -/
theorem jsonScan_units (h : ∀ u ∈ units, u.Good) (rest : Bytes) :
    jsonScan 0 true (units.flatMap Spelling.text ++ 0x22 :: rest) = true ↔
      Paired units ∧ jsonScan 0 false rest = true := by
  fun_induction Paired units with
  | case1 => simp [jsonScan]
  | case2 u units hnone ih =>
    rw [jsonScan_unit h hnone]
    exact ih (forall_mem_cons.mp h).2
  | case3 u n hsome hhigh =>
    rw [flatMap_cons, append_assoc, jsonScan_code hsome, if_pos hhigh, if_neg]
    · simp
    · simp [jsonEscapeUnit]
  | case4 u n hsome hhigh low units ih =>
    obtain ⟨-, h⟩ := forall_mem_cons.mp h
    rw [flatMap_cons, append_assoc, jsonScan_code hsome, if_pos hhigh,
      jsonEscapeUnit_flatMap h, head?_cons, Option.bind_some]
    -- the next unit has to be the second half
    by_cases hlow : low.unit?.any isLow = true
    · rw [if_pos hlow, and_iff_right hlow]
      cases low with
      | byte b => cases hlow
      | short e => cases hlow
      | code a b c d => exact ih (forall_mem_cons.mp h).2
    · simp [hlow]
  | case5 u units n hsome hhigh ih =>
    rw [flatMap_cons, append_assoc, jsonScan_code hsome, if_neg hhigh]
    by_cases hlow : isLow n = true
    · simp [hlow]
    · rw [if_neg hlow, ih (forall_mem_cons.mp h).2, and_assoc]
      exact (and_iff_right hlow).symm

/-! ### A document -/

/-- The scan passes a text when it passes all its strings. -/
theorem jsonScan_parts {parts : List Part} (h : ∀ part ∈ parts, part.Good) :
    jsonScan 0 false (parts.flatMap Part.text) = true ↔ ∀ part ∈ parts, part.Pairs := by
  induction parts with
  | nil => simp [jsonScan]
  | cons part parts ih =>
    obtain ⟨hpart, hpts⟩ := forall_mem_cons.mp h
    rw [flatMap_cons, forall_mem_cons, ← ih hpts]
    cases part with
    | outside l =>
      rw [Part.text, jsonScan_outside hpart]
      exact (and_iff_right trivial).symm
    | string units =>
      rw [Part.text, cons_append, append_assoc]
      exact jsonScan_units hpart _

/-- A document's text is accepted exactly when it is UTF-8 and the surrogates that its strings
escape come in pairs. -/
theorem jsonTextCheck_iff_paired (parts : List Part) (h : ∀ part ∈ parts, part.Good) :
    jsonTextCheck (parts.flatMap Part.text) = .ok () ↔
      Utf8.valid (parts.flatMap Part.text) = true ∧ ∀ part ∈ parts, part.Pairs := by
  rw [jsonTextCheck, ← jsonScan_parts h]
  cases Utf8.valid (parts.flatMap Part.text) <;>
    cases jsonScan 0 false (parts.flatMap Part.text) <;> simp

/-- A string of an escaped quote, an escaped backslash and a pair of surrogates. -/
theorem jsonTextCheck_iff_paired_escapes :
    jsonTextCheck ([.string [.short 0x22, .short 0x5C, .code 0x64 0x38 0x30 0x30,
      .code 0x64 0x63 0x30 0x30]].flatMap Part.text) = .ok () := by
  have hhigh : Json.hex4? [0x64, 0x38, 0x30, 0x30] = some 0xD800 := by decide
  have hlow : Json.hex4? [0x64, 0x63, 0x30, 0x30] = some 0xDC00 := by decide
  refine (jsonTextCheck_iff_paired _ ?_).mpr ⟨by decide, ?_⟩
  · simp [Part.Good, Spelling.Good, hhigh, hlow, Json.shortUnescape?]
  · simp [Part.Pairs, Paired, Spelling.unit?, hhigh, hlow, isHigh, isLow]

end Mutant.Builtin
