import Mutant.Mutil.Equiv.EncryptByteCode
import Mutant.Security.Equiv.RecordKeys
import Mutant.Vm.Decode

/-!
# The machine reads what was covered

Every opcode and operand the machine uncovers in place is the one that stands there in the program
`EncryptByteCode` was given, in the main stream and in every function's (`secureXOR_anywhere`).  That
takes a password: without one the program is covered under a derived password, and a machine that
was given none does not derive it (`emptyPassword_misread`).
-/

namespace Mutant.Vm

open Mutant.Security
open Mutant.Mutil (CompiledByteCode Constant coverOrKeep encryptByteCode encryptPoolConstant
  streamPassword)

variable {κ : Type} (P : Primitives) (block : ChaCha20Block)

/-- The machine reads `covered` as the instructions `plain`: every opcode, every operand of one byte
and of two, and the places where instructions start. -/
structure Reads (vm : VM) (covered plain : Bytes) : Prop where
  length_eq : covered.length = plain.length
  opcode : ∀ i b, plain[i]? = some b → vm.fetch P block covered i = .ok (vm.decodeOpcode b)
  operand8 : ∀ i b, plain[i]? = some b → vm.readUint8 P block covered (i : Nat) = .ok b
  operand16 : ∀ (i : Nat) b c, plain[i]? = some b → plain[i + 1]? = some c →
    vm.readUint16 P block covered i = .ok (UInt16.ofNat (BigEndian.get [b, c]))
  boundaries : vm.password ≠ [] → vm.buildInstructionBoundaries P block covered =
      VM.boundariesFrom (fun i => orPanic (plain[i]?.map vm.decodeOpcode)) plain.length
        plain.length 0

/-- What `boundariesFrom` finds depends on the opcodes below the end only. -/
theorem boundariesFrom_congr {f g : Nat → Except StreamFault UInt8} {length : Nat}
    (h : ∀ i < length, f i = g i) (fuel i : Nat) :
    VM.boundariesFrom f length fuel i = VM.boundariesFrom g length fuel i := by
  induction fuel generalizing i with
  | zero => rfl
  | succ fuel ih =>
    rw [VM.boundariesFrom, VM.boundariesFrom]
    by_cases hend : length ≤ i
    · rw [if_pos hend, if_pos hend]
    · rw [if_neg hend, if_neg hend, h i (Nat.lt_of_not_le hend)]
      simp only [ih]

variable {P block}

/-- A text and what it is covered as, under the machine's own stream. -/
theorem reads_of_secureXOR {vm : VM} {cov plain : Bytes}
    (h : secureXOR P block plain (Int64.ofNat vm.inslen) vm.password = .ok cov) :
    Reads P block vm cov plain := by
  -- Covering is its own inverse, so covering the covered text gives the plain one.
  have hback : secureXOR P block cov (Int64.ofNat vm.inslen) vm.password = .ok plain :=
    secureXORAt_secureXORAt P block h
  have hlen : cov.length = plain.length := length_secureXORAt P block h
  have hone {i : Nat} {b : UInt8} (hb : plain[i]? = some b) :
      ∃ c, cov[i]? = some c ∧ (vm.instructionStream P).xorOneAt block c i = .ok b := by
    obtain ⟨hi, -⟩ := List.getElem?_eq_some_iff.mp hb
    have hc : cov[i]? = some cov[i] := List.getElem?_eq_getElem (by omega)
    obtain ⟨b', hb', hone⟩ := secureXOROneAt_getElem P block hback hc
    rw [hb] at hb'
    refine ⟨cov[i], hc, ?_⟩
    rw [VM.instructionStream, xorOneAt_eq, hone, Option.some.inj hb']
  have hfetch {i : Nat} {b : UInt8} (hb : plain[i]? = some b) :
      vm.fetch P block cov i = .ok (vm.decodeOpcode b) := by
    obtain ⟨c, hc, hone⟩ := hone hb
    simp only [VM.fetch, hc, hone]
    rfl
  constructor
  case length_eq => exact hlen
  case opcode => exact fun i b hb => hfetch hb
  case operand8 =>
    intro i b hb
    obtain ⟨hi, -⟩ := List.getElem?_eq_some_iff.mp hb
    obtain ⟨c, hc, hone⟩ := hone hb
    have hrng : ¬ ((i : Int) < 0 ∨ (cov.length : Int) ≤ i) := by omega
    rw [VM.readUint8, if_neg hrng, Int.toNat_natCast]
    simp only [hc, hone]
  case operand16 =>
    intro i b c hb hc
    obtain ⟨hi, -⟩ := List.getElem?_eq_some_iff.mp hc
    have hrng : ¬ ((i : Int) < 0 ∨ (cov.length : Int) < i + 2) := by omega
    have hslice := secureXORAt_slice P block hback (k := i) (n := 2) (by decide) (by omega)
    have htwo : (plain.drop i).take 2 = [b, c] := by
      apply List.ext_getElem?
      intro j
      rw [List.getElem?_take, List.getElem?_drop]
      match j with
      | 0 => exact hb
      | 1 => exact hc
      | j + 2 => rw [if_neg (by omega)]; rfl
    rw [VM.readUint16, if_neg hrng, Int.toNat_natCast, VM.instructionStream, xorAt_eq, hslice, htwo]
    rfl
  case boundaries =>
    intro hpw
    rw [VM.buildInstructionBoundaries, if_neg hpw, hlen]
    apply boundariesFrom_congr
    intro i hi
    have hb : plain[i]? = some plain[i] := List.getElem?_eq_getElem hi
    rw [hfetch hb, hb]
    rfl

/-! ### A whole program -/

/-- No instructions are read as none. -/
theorem reads_nil (vm : VM) : Reads P block vm [] [] where
  length_eq := rfl
  opcode i b h := nomatch h
  operand8 i b h := nomatch h
  operand16 i b c h := nomatch h
  boundaries hpw := by
    rw [VM.buildInstructionBoundaries, if_neg hpw]
    rfl

/-- Only a stream of no bytes is kept as it is. -/
theorem reads_of_coverOrKeep {vm : VM} {cov plain : Bytes}
    (h : coverOrKeep P block plain vm.inslen vm.password = .ok cov) :
    Reads P block vm cov plain := by
  rw [coverOrKeep] at h
  by_cases hpl : plain = []
  · rw [hpl] at h ⊢
    have hkept : cov = [] := (Except.ok.inj h).symm
    rw [hkept]
    exact reads_nil vm
  · cases hxor : secureXOR P block plain (Int64.ofNat vm.inslen) vm.password with
    | ok xored =>
      rw [hxor] at h
      rw [← Except.ok.inj h]
      exact reads_of_secureXOR hxor
    | error fault =>
      rw [hxor] at h
      rw [secureXOR_eq P block _ _ hpl] at hxor
      by_cases hfits : plain.length ≤ streamLength
      · rw [if_pos hfits] at hxor
        cases hxor
      · rw [if_neg hfits] at hxor
        rw [← Except.error.inj hxor] at h
        cases h

/-- The functions among the constants, in place. -/
def ReadsConstant (P : Primitives) (block : ChaCha20Block) (vm : VM) :
    (plain covered : Constant κ) → Prop
  | .function instructions, covered =>
    ∃ c, covered = .function c ∧ Reads P block vm c instructions
  | _, _ => True

theorem readsConstant_of_encrypt {vm : VM} {plain covered : Constant κ}
    (h : encryptPoolConstant P block vm.inslen vm.password plain = .ok covered) :
    ReadsConstant P block vm plain covered := by
  cases plain with
  | function is =>
    obtain ⟨c, hc, h⟩ := Result.ok_of_bind h
    exact ⟨c, (Except.ok.inj h).symm, reads_of_coverOrKeep hc⟩
  | scalar v => trivial
  | encrypted v => trivial

/-- The machine that runs a program reads the program that was covered. -/
theorem reads_encryptByteCode {byteCode cov : CompiledByteCode κ} {password : Bytes}
    (h : encryptByteCode P block byteCode password = .ok cov) :
    let vm := newWithPassword cov (streamPassword P byteCode.instructions password)
    Reads P block vm cov.instructions byteCode.instructions ∧
      List.Forall₂ (ReadsConstant P block vm) byteCode.constants cov.constants := by
  obtain ⟨instructions, hmain, h⟩ := Result.ok_of_bind h
  obtain ⟨constants, hcs, h⟩ := Result.ok_of_bind h
  have hcov := Except.ok.inj h
  -- The machine's length is that of the covered stream, which is as long as the plain one.
  let vm : VM :=
    { inslen := byteCode.instructions.length
      password := streamPassword P byteCode.instructions password
      opcodeReverse := normalizeOpcodeMap byteCode.opcodeMap }
  have hrds : Reads P block vm instructions byteCode.instructions := reads_of_coverOrKeep hmain
  have hvm : newWithPassword cov (streamPassword P byteCode.instructions password) = vm := by
    rw [← hcov, newWithPassword]
    simp only [hrds.length_eq, vm]
  rw [hvm, ← hcov]
  exact ⟨hrds, Result.forall₂_of_mapM (fun _ _ => readsConstant_of_encrypt) hcs⟩

/-- Reading one byte of a covered text is uncovering all of it.  The stream entered at an offset
gives what the whole stream gives from there on, covering twice is covering not at all, and so the
machine reads every program as it was before it was covered under a password that is not empty. -/
theorem secureXOR_anywhere (P : Primitives) (block : ChaCha20Block) :
    (∀ seed password data, data ≠ [] → data.length ≤ streamLength →
      ∃ whole, secureXOR P block data seed password = .ok whole) ∧
    (∀ seed password data whole, secureXOR P block data seed password = .ok whole →
      ∀ k < data.length, secureXORAt P block (data.drop k) seed password k = .ok (whole.drop k) ∧
        (newXORStream P seed password).xorAt block (data.drop k) k = .ok (whole.drop k) ∧
        ∃ b c, data[k]? = some b ∧ whole[k]? = some c ∧
          (newXORStream P seed password).xorOneAt block b k = .ok c) ∧
    (∀ seed password data covered (offset : Int),
      (secureXORAt P block data seed password offset = .ok covered →
        secureXORAt P block covered seed password offset = .ok data) ∧
      ((newXORStream P seed password).xorAt block data offset = .ok covered →
        (newXORStream P seed password).xorAt block covered offset = .ok data)) ∧
    (∀ seed password b c (offset : Int),
      (newXORStream P seed password).xorOneAt block b offset = .ok c →
        (newXORStream P seed password).xorOneAt block c offset = .ok b) ∧
    (∀ (κ : Type) (byteCode : CompiledByteCode κ) password, password ≠ [] →
      (∀ covered, encryptByteCode P block byteCode password = .ok covered →
        let vm := newWithPassword covered password
        Reads P block vm covered.instructions byteCode.instructions ∧
          List.Forall₂ (ReadsConstant P block vm) byteCode.constants covered.constants) ∧
      (byteCode.instructions.length ≤ streamLength →
        (∀ instructions, .function instructions ∈ byteCode.constants →
          instructions.length ≤ streamLength) →
        ∃ covered, encryptByteCode P block byteCode password = .ok covered)) := by
  -- defined, entered anywhere, its own inverse (twice), and read by the machine
  refine ⟨?_, ?_, ?_, ?_, ?_⟩
  · intro seed password data hdata hfits
    rw [secureXOR_eq P block seed password hdata, if_pos hfits]
    exact ⟨_, rfl⟩
  · intro seed password data whole h k hk
    have hb : data[k]? = some data[k] := List.getElem?_eq_getElem hk
    obtain ⟨c, hc, hone⟩ := secureXOROneAt_getElem P block h hb
    refine ⟨secureXORAt_drop P block h hk, ?_, data[k], c, hb, hc, ?_⟩
    · exact secureXORAt_drop P block h hk
    · exact hone
  · intro seed password data covered offset
    exact ⟨secureXORAt_secureXORAt P block, secureXORAt_secureXORAt P block⟩
  · intro seed password b c offset h
    rw [xorOneAt_eq] at h ⊢
    exact secureXOROneAt_secureXOROneAt P block h
  · intro κ byteCode password hpassword
    refine ⟨fun covered hcovered => ?_, Mutil.encryptByteCode_of_le P block byteCode password⟩
    have hreads := reads_encryptByteCode hcovered
    rwa [streamPassword, if_neg hpassword] at hreads

/-! ### A small cipher -/

/-- A hash that depends on the length of the message only. -/
def lengthHash : Primitives :=
  { copying with sha256 := fun m => Vector.replicate 32 (UInt8.ofNat m.length) }

/-- A block of this cipher holds a byte of the key and the block's number in turn. -/
def keyBlock : ChaCha20Block := fun key _ counter =>
  Vector.ofFn fun i => if i.val % 2 = 0 then key.head else UInt8.ofNat counter.toNat

/-- A program longer than a block, with a function. -/
def twoBlocks : CompiledByteCode Unit where
  instructions := List.replicate 65 0 ++ [7, 1, 2]
  constants := [.function [9, 8]]

/-- Past the first block of `twoBlocks` and in its function, the machine reads what stood there. -/
theorem secureXOR_anywhere_twoBlocks :
    ∃ covered c, encryptByteCode lengthHash keyBlock twoBlocks (text "pw") = .ok covered ∧
      covered.constants = [.function c] ∧
      let vm := newWithPassword covered (text "pw")
      vm.fetch lengthHash keyBlock covered.instructions 65 = .ok (vm.decodeOpcode 7) ∧
      vm.readUint16 lengthHash keyBlock covered.instructions (66 : Nat) = .ok 258 ∧
      vm.readUint8 lengthHash keyBlock c (1 : Nat) = .ok 8 := by
  obtain ⟨hreads, hcovers⟩ := (secureXOR_anywhere lengthHash keyBlock).2.2.2.2 Unit twoBlocks
    (text "pw") (by decide)
  obtain ⟨covered, hcovered⟩ := hcovers (by decide) (by simp [twoBlocks, streamLength]; decide)
  obtain ⟨hmain, hconstants⟩ := hreads covered hcovered
  obtain ⟨_, _, ⟨c, rfl, hc⟩, hrest, hcs⟩ := List.forall₂_cons_left_iff.mp hconstants
  rw [List.forall₂_nil_left_iff.mp hrest] at hcs
  exact ⟨covered, c, hcovered, hcs, hmain.opcode 65 7 rfl, hmain.operand16 66 1 2 rfl rfl,
    hc.operand8 1 8 rfl⟩

/-- Without a password a program of one opcode is covered under the derived one, and a machine
without a password reads another opcode. -/
theorem emptyPassword_misread :
    ∃ covered, encryptByteCode lengthHash keyBlock ⟨[5], ([] : List (Constant Unit)), []⟩ [] =
        .ok covered ∧
      (newWithPassword covered []).fetch lengthHash keyBlock covered.instructions 0 = .ok 58 := by
  refine ⟨⟨[36], [], []⟩, ?_, ?_⟩
  · decide +kernel
  · decide +kernel

end Mutant.Vm
