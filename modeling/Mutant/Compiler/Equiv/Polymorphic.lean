import Mathlib.Data.List.Pairwise
import Mutant.Code.Equiv.LineTable
import Mutant.Code.Layout
import Mutant.Compiler.PositionsKept

/-!
# The padding pass and source positions

A stream that decodes is its instructions one after the other, and padding puts a block after each
(`foldl_padStep`).  Repointing acts on each instruction alone and leaves the blocks as they are
(`rewriteChunks_spliced`), so it succeeds exactly when the jumps of the stream can be repointed.
Then the tables follow; where it fails the tables are dropped.

* `Blocks.rewriteChunks_spliced`, `StreamRun.result_eq`: what the pass makes of one stream.
* `StreamRun.kept_of_paddable`, `spliceFillers_keepsPositions_iff`: when it keeps the positions, of
  one stream and of a program.
* `longProgram_losesPositions`: a program whose positions it drops.
-/

namespace Mutant.Polymorphic

open List Int64 StreamRun Mutant.Code

variable {fuel i start : Nat} {l : List (Nat × Nat)}

variable {σ : Type} {rng : Rng σ} {c ins : Bytes} {cs ds : List Bytes}

/-! ### Decoding -/

theorem IsInstr.length_pos (h : IsInstr c) : 0 < c.length := by
  obtain ⟨b, rest, op, rfl, -, -⟩ := h
  simp

/-- The start and the width of instructions, the first at offset `i`. -/
def offsetsFrom (i : Nat) : List Bytes → List (Nat × Nat)
  | [] => []
  | c :: cs => (i, c.length) :: offsetsFrom (i + c.length) cs

theorem length_le_flatten (h : ∀ c ∈ cs, IsInstr c) : cs.length ≤ cs.flatten.length := by
  induction cs with
  | nil => simp
  | cons c cs ih =>
    have hpos := (h c mem_cons_self).length_pos
    have hrest := ih fun d hd => h d (mem_cons_of_mem c hd)
    rw [flatten_cons, length_append, length_cons]
    omega

theorem boundariesFrom_cons (hc : IsInstr c) (rest : Bytes) :
    boundariesFrom (fuel + 1) i (c ++ rest) =
      (boundariesFrom fuel (i + c.length) rest).map ((i, c.length) :: ·) := by
  obtain ⟨b, tail, op, rfl, hop, hlen⟩ := hc
  rw [cons_append, boundariesFrom, hop]
  dsimp only
  rw [← hlen, ← cons_append, if_neg (by rw [length_append]; omega), drop_left]

theorem startsFrom_cons (hc : IsInstr c) (rest : Bytes) :
    startsFrom (fuel + 1) i (c ++ rest) = i :: startsFrom fuel (i + c.length) rest := by
  obtain ⟨b, tail, op, rfl, hop, hlen⟩ := hc
  rw [cons_append, startsFrom, hop]
  dsimp only
  rw [← hlen, ← cons_append, if_neg (by rw [length_append]; omega), drop_left]

/-- What is read off a stream one instruction after another is read off its instructions. -/
theorem read_flatten {α : Type} {read : Nat → Nat → Bytes → α} {next : Nat → Bytes → α → α}
    (whole : Nat → List Bytes → α) (hnil : ∀ fuel i, read fuel i [] = whole i [])
    (hcons : ∀ {fuel i c} rest, IsInstr c →
      read (fuel + 1) i (c ++ rest) = next i c (read fuel (i + c.length) rest))
    (hwhole : ∀ i c cs, whole i (c :: cs) = next i c (whole (i + c.length) cs))
    (hcs : ∀ c ∈ cs, IsInstr c) (i : Nat) : read cs.flatten.length i cs.flatten = whole i cs := by
  suffices hread : ∀ fuel, cs.length ≤ fuel → read fuel i cs.flatten = whole i cs from
    hread _ (length_le_flatten hcs)
  induction cs generalizing i with
  | nil => exact fun fuel _ => hnil fuel i
  | cons c cs ih =>
    obtain ⟨hc, hcs⟩ := forall_mem_cons.mp hcs
    rintro (_ | fuel) hfuel
    · cases hfuel
    · rw [flatten_cons, hcons _ hc, ih hcs _ fuel (Nat.le_of_succ_le_succ hfuel), hwhole]

/-- A stream that decodes is a list of instructions. -/
theorem exists_instrs_of_boundariesFrom {bytes : Bytes} {bs : List (Nat × Nat)}
    (h : boundariesFrom fuel i bytes = some bs) :
    ∃ cs : List Bytes, bytes = cs.flatten ∧ ∀ c ∈ cs, IsInstr c := by
  fun_induction boundariesFrom fuel i bytes generalizing bs with
  | case1 => exact ⟨[], rfl, by simp⟩
  | case5 fuel i b rest op hop w hlen =>
    rename_i ih
    obtain ⟨bs', hbs', -⟩ := Option.map_eq_some_iff.mp h
    obtain ⟨cs, hcs, hall⟩ := ih hbs'
    refine ⟨(b :: rest).take w :: cs, ?_,
      forall_mem_cons.mpr ⟨⟨b, _, op, take_cons (Instr.size_pos _), hop, ?_⟩, hall⟩⟩
    · rw [flatten_cons, ← hcs, take_append_drop]
    · rw [length_take, Nat.min_eq_left (Nat.le_of_not_lt hlen)]
  | _ => cases h

theorem decodeBoundaries_flatten (hcs : ∀ c ∈ cs, IsInstr c) :
    decodeBoundaries cs.flatten = some (offsetsFrom 0 cs) :=
  read_flatten (fun i cs => some (offsetsFrom i cs)) (fun fuel _ => by cases fuel <;> rfl)
    (fun rest hc => boundariesFrom_cons hc rest) (fun _ _ _ => rfl) hcs 0

theorem instructionStarts_flatten (hcs : ∀ c ∈ cs, IsInstr c) :
    instructionStarts cs.flatten = (offsetsFrom 0 cs).map Prod.fst :=
  read_flatten (fun i cs => (offsetsFrom i cs).map Prod.fst) (fun fuel _ => by cases fuel <;> rfl)
    (fun rest hc => startsFrom_cons hc rest) (fun _ _ _ => rfl) hcs 0

/-! ### Splicing -/

/-- Instructions with a block after each. -/
def spliced : List Bytes → List (Bytes × List Nat) → Bytes
  | c :: cs, block :: blocks => c ++ block.1 ++ spliced cs blocks
  | _, _ => []

/-- The operands of the blocks' own jumps, the first instruction going to `place`. -/
def ownFrom (place : Nat) : List Bytes → List (Bytes × List Nat) → List Nat
  | c :: cs, block :: blocks =>
    block.2.map (place + c.length + ·) ++ ownFrom (place + c.length + block.1.length) cs blocks
  | _, _ => []

/-- One round of the loop, at the instruction `c`. -/
theorem padStep_eq (first : Filler) (others : List Filler) (cutoff : Nat) (front c back : Bytes)
    (p : Padding σ) :
    let block := drawBlock rng first others cutoff front.length (p.padded.length + c.length) p.rng
    padStep rng first others (front ++ (c ++ back)) cutoff p (front.length, c.length) =
      { remap := p.remap ++ [(front.length, p.padded.length)]
        padded := p.padded ++ c ++ block.1.1
        ownJumps := p.ownJumps ++ block.1.2.map (p.padded.length + c.length + ·)
        rng := block.2 } := by
  unfold padStep
  dsimp only
  rw [drop_left, take_left, length_append]

/-- The loop of `padInstructions` in closed form. -/
theorem foldl_padStep (rng : Rng σ) (first : Filler) (others : List Filler) (cutoff : Nat)
    (front : Bytes) (cs : List Bytes) (p : Padding σ) :
    let blocks := drawBlocks rng first others cutoff front.length p.padded.length cs p.rng
    let q := (offsetsFrom front.length cs).foldl
      (padStep rng first others (front ++ cs.flatten) cutoff) p
    q.remap ++ [(front.length + cs.flatten.length, q.padded.length)] =
        p.remap ++ placements front.length p.padded.length cs blocks.1 ∧
      q.padded = p.padded ++ spliced cs blocks.1 ∧
      q.ownJumps = p.ownJumps ++ ownFrom p.padded.length cs blocks.1 ∧ q.rng = blocks.2 := by
  induction cs generalizing front p with
  | nil => simp [offsetsFrom, drawBlocks, placements, spliced, ownFrom]
  | cons c cs ih =>
    have hrest := ih (front ++ c)
      (padStep rng first others (front ++ (c ++ cs.flatten)) cutoff p (front.length, c.length))
    simp only [padStep_eq, length_append, append_assoc, ← Nat.add_assoc] at hrest
    simp only [offsetsFrom, foldl_cons, flatten_cons, padStep_eq, drawBlocks, placements, spliced,
      ownFrom, length_append, append_assoc, ← Nat.add_assoc]
    exact hrest

/-! ### Repointing -/

/-- One instruction at offset `i` with its jump repointed. -/
def rewriteInstr (remap : List (Nat × Nat)) (own : List Nat) (i : Nat) : Bytes → Option Bytes
  | [] => none
  | b :: rest =>
    match Opcode.ofByte? b.toNat with
    | none => none
    | some op =>
      (rewriteOperands remap own op.jumpOperands op.operandWidths 0 (i + 1) rest).map (b :: ·)

/-- Instructions from offset `i` on with their jumps repointed. -/
def rewriteChunks (remap : List (Nat × Nat)) (own : List Nat) : Nat → List Bytes → Option Bytes
  | _, [] => some []
  | i, c :: cs =>
    (rewriteInstr remap own i c).bind fun c' =>
      (rewriteChunks remap own (i + c.length) cs).map (c' ++ ·)

variable {remap : List (Nat × Nat)} {own : List Nat}

/-- The first instruction is rewritten alone, and then what is behind it. -/
theorem rewriteFrom_cons (hc : IsInstr c) (rest : Bytes) :
    rewriteFrom remap own (fuel + 1) i (c ++ rest) = (rewriteInstr remap own i c).bind fun c' =>
        (rewriteFrom remap own fuel (i + c.length) rest).map (c' ++ ·) := by
  obtain ⟨b, tail, op, rfl, hop, hlen⟩ := hc
  have htail : (⟨op, []⟩ : Instr).size - 1 = tail.length := by
    rw [← hlen, length_cons, Nat.add_sub_cancel]
  rw [cons_append, rewriteFrom, rewriteInstr, hop]
  dsimp only
  rw [htail, take_left, ← hlen, ← cons_append, if_neg (by rw [length_append]; omega), drop_left]
  cases rewriteOperands remap own op.jumpOperands op.operandWidths 0 (i + 1) tail <;> rfl

/-- Two stretches of instructions are rewritten one after the other. -/
theorem rewriteChunks_append (i : Nat) (cs ds : List Bytes) : rewriteChunks remap own i (cs ++ ds) =
      (rewriteChunks remap own i cs).bind fun front =>
        (rewriteChunks remap own (i + cs.flatten.length) ds).map (front ++ ·) := by
  induction cs generalizing i with
  | nil => simp [rewriteChunks]
  | cons c cs ih =>
    rw [cons_append, rewriteChunks, rewriteChunks]
    cases rewriteInstr remap own i c with
    | none => rfl
    | some c' =>
      rw [ih, flatten_cons, length_append, Nat.add_assoc]
      cases rewriteChunks remap own (i + c.length) cs with
      | none => rfl
      | some front => cases rewriteChunks remap own (i + (c.length + cs.flatten.length)) ds <;> simp

/-- An opcode has no jump operand, or its first operand is one, of two bytes. -/
theorem jumpOperands_cases (op : Opcode) :
    op.jumpOperands = [] ∨ (op.jumpOperands = [0] ∧ ∃ ws, op.operandWidths = 2 :: ws) := by
  cases op <;> first | exact .inl rfl | exact .inr ⟨rfl, _, rfl⟩

/-- Operands none of which is a jump offset stay as they are. -/
theorem rewriteOperands_of_not_mem {slots : List Nat} (ws : List Nat) (operand off : Nat)
    (bytes : Bytes) (h : ∀ j, operand ≤ j → j ∉ slots) :
    rewriteOperands remap own slots ws operand off bytes = some bytes := by
  induction ws generalizing operand off bytes with
  | nil => rfl
  | cons w ws ih =>
    rw [rewriteOperands, ih (operand + 1) (off + w) (bytes.drop w) fun j hj => h j (by omega),
      if_neg (by simp [h operand (Nat.le_refl _)])]
    simp

theorem length_uint16Bytes (n : Nat) : (uint16Bytes n).length = 2 := rfl

/-- What repointing does to an instruction that jumps: its own jumps stay as they are. -/
theorem rewriteInstr_of_some {target : Nat} (hc : IsInstr c) (ht : jumpTarget? c = some target) :
    3 ≤ c.length ∧ rewriteInstr remap own i c = if i + 1 ∈ own then some c else
      (remap.lookup target).bind fun n =>
        if maxUint16 < n then none else some (c.take 1 ++ uint16Bytes n ++ c.drop 3) := by
  obtain ⟨b, rest, op, rfl, hop, hlen⟩ := hc
  rw [jumpTarget?, hop] at ht
  dsimp only at ht
  rcases jumpOperands_cases op with hsl | ⟨hsl, ws, hws⟩
  · rw [hsl] at ht
    cases ht
  rw [hsl] at ht
  obtain rfl : readUint16 rest = target := Option.some.inj ht
  -- the operands after the first are not jump offsets
  have hrest : rewriteOperands remap own [0] ws 1 (i + 1 + 2) (rest.drop 2) = some (rest.drop 2) :=
    rewriteOperands_of_not_mem ws 1 _ _ fun j hj => by simp; omega
  rw [Instr.size, hws, foldr_cons] at hlen
  refine ⟨by omega, ?_⟩
  rw [rewriteInstr, hop]
  dsimp only
  rw [hsl, hws, rewriteOperands, hrest]
  by_cases hown : i + 1 ∈ own
  · simp [hown]
  · rw [if_pos ⟨rfl, by simp, hown⟩, if_neg hown]
    cases remap.lookup (readUint16 rest) with
    | none => rfl
    | some n => by_cases hbig : maxUint16 < n <;> simp [hbig]

/-- An instruction that does not jump is left as it is. -/
theorem rewriteInstr_of_none (hc : IsInstr c) (ht : jumpTarget? c = none) :
    rewriteInstr remap own i c = some c := by
  obtain ⟨b, rest, op, rfl, hop, -⟩ := hc
  rw [jumpTarget?, hop] at ht
  dsimp only at ht
  split_ifs at ht with hsl
  rw [rewriteInstr, hop]
  dsimp only
  rw [hsl, rewriteOperands_of_not_mem _ _ _ _ (by simp)]
  rfl

/-- The jump of the instruction, if it is one, can be repointed. -/
def Repointable (remap : List (Nat × Nat)) (c : Bytes) : Prop :=
  ∀ target, jumpTarget? c = some target → ∃ n, remap.lookup target = some n ∧ n ≤ maxUint16

/-- An instruction is repointed in place, keeping its opcode and its width, or it cannot be. -/
theorem rewriteInstr_cases (remap : List (Nat × Nat)) (hc : IsInstr c) :
    (Repointable remap c ∧ ∃ c', rewriteInstr remap [] 0 c = some c' ∧ c'.length = c.length ∧
      c'.head? = c.head?) ∨ (¬ Repointable remap c ∧ rewriteInstr remap [] 0 c = none) := by
  unfold Repointable
  cases ht : jumpTarget? c with
  | none => exact .inl ⟨by simp, c, rewriteInstr_of_none hc ht, rfl, rfl⟩
  | some tgt =>
    obtain ⟨hlen, hrw⟩ : 3 ≤ c.length ∧ rewriteInstr remap [] 0 c = _ := rewriteInstr_of_some hc ht
    simp only [Option.some.injEq, forall_eq', hrw, not_mem_nil, if_false]
    cases remap.lookup tgt with
    | none => simp
    | some n =>
      by_cases hbig : maxUint16 < n
      · exact .inr ⟨by simpa using hbig, if_pos hbig⟩
      · refine .inl ⟨⟨n, rfl, Nat.le_of_not_lt hbig⟩, _, if_neg hbig, ?_, ?_⟩
        · simp only [length_append, length_take, length_drop, length_uint16Bytes]
          omega
        · obtain ⟨b, rest, rfl⟩ := exists_cons_of_length_pos hc.length_pos
          rfl

/-! ### Blocks -/

/-- A block is instructions that repointing leaves as they are: its only jump is its own. -/
def IsBlock (block : Bytes × List Nat) : Prop :=
  ∃ ds : List Bytes, block.1 = ds.flatten ∧ (∀ d ∈ ds, IsInstr d) ∧
    (∀ o ∈ block.2, 0 < o ∧ o < block.1.length) ∧
    ∀ remap own place, (∀ o ∈ block.2, place + o ∈ own) →
      rewriteChunks remap own place ds = some block.1

/-- Instructions that do not jump are a block. -/
theorem rewriteChunks_of_none (hds : ∀ d ∈ ds, IsInstr d ∧ jumpTarget? d = none) :
    rewriteChunks remap own i ds = some ds.flatten := by
  induction ds generalizing i with
  | nil => rfl
  | cons d ds ih =>
    obtain ⟨hd, hnone⟩ := hds d mem_cons_self
    rw [rewriteChunks, rewriteInstr_of_none hd hnone, ih fun e he => hds e (mem_cons_of_mem d he)]
    rfl

theorem ofByte?_opByte (op : Opcode) : Opcode.ofByte? (opByte op).toNat = some op := by
  cases op <;> rfl

/-- An opcode without operands is an instruction that does not jump. -/
theorem isInstr_single {op : Opcode} (hop : op.operandWidths = []) :
    IsInstr [opByte op] ∧ jumpTarget? [opByte op] = none := by
  refine ⟨⟨opByte op, [], op, rfl, ofByte?_opByte op, ?_⟩, ?_⟩
  · simp [Instr.size, hop]
  · rw [jumpTarget?, ofByte?_opByte]
    dsimp only
    rcases jumpOperands_cases op with hsl | ⟨-, ws, hws⟩
    · rw [if_pos hsl]
    · rw [hop] at hws
      cases hws

/-- Opcodes without operands, one after the other. -/
theorem isInstr_of_mem_singles {ops : List Opcode} (hops : ∀ op ∈ ops, op.operandWidths = []) :
    ∀ d ∈ ops.map (fun op => [opByte op]), IsInstr d ∧ jumpTarget? d = none := by
  intro d hd
  obtain ⟨op, hop, rfl⟩ := mem_map.mp hd
  exact isInstr_single (hops op hop)

theorem flatten_singles (ops : List Opcode) :
    (ops.map fun op => [opByte op]).flatten = ops.map opByte := by
  induction ops with
  | nil => rfl
  | cons op ops ih => simp [ih]

theorem isBlock_nil : IsBlock ([], []) := ⟨[], rfl, by simp, by simp, fun _ _ _ _ => rfl⟩

/-- A push and a pop make a block: neither has an operand to rewrite. -/
theorem isBlock_generateNOP (s : σ) :
    IsBlock ((generateNOP rng s).1, []) ∧ (generateNOP rng s).1.length ≤ 10 := by
  obtain ⟨push, hpush, heq⟩ : ∃ push : Opcode, push.operandWidths = [] ∧
      (generateNOP rng s).1 = [push, .opPop].map opByte := by
    refine ⟨_, ?_, rfl⟩
    split_ifs <;> rfl
  have hops : ∀ op ∈ [push, .opPop], op.operandWidths = [] := by simp [hpush]; rfl
  have hall := isInstr_of_mem_singles hops
  refine ⟨⟨_, ?_, fun d hd => (hall d hd).1, by simp, fun _ _ _ _ => ?_⟩, by rw [heq]; simp⟩
  · rw [heq, flatten_singles]
  · rw [rewriteChunks_of_none hall, flatten_singles, heq]

/-- Dead code is drawn from instructions without operands. -/
theorem deadCode_eq (rng : Rng σ) (n : Nat) (s : σ) :
    ∃ ops : List Opcode, (deadCode rng n s).1 = ops.map opByte ∧ ops.length = n ∧
      ∀ op ∈ ops, op.operandWidths = [] := by
  induction n generalizing s with
  | zero => exact ⟨[], rfl, rfl, by simp⟩
  | succ n ih =>
    obtain ⟨ops, hops, hlen, hall⟩ := ih (rng.intn (deadCodeFillers.length - 1) s).2
    refine ⟨deadCodeFillers.get ((rng.intn (deadCodeFillers.length - 1) s).1.cast (by decide)) :: ops,
      ?_, by rw [length_cons, hlen], ?_⟩
    · rw [map_cons, ← hops]
      rfl
    · have hfillers : ∀ op ∈ deadCodeFillers, op.operandWidths = [] := by decide
      exact forall_mem_cons.mpr ⟨hfillers _ (get_mem _ _), hall⟩

/-- A jump over opcodes without operands, after such opcodes, is a block. -/
theorem isBlock_jumpOver {pre after : List Opcode} {jump : Opcode} (tgt : Nat)
    (hbef : ∀ op ∈ pre, op.operandWidths = []) (haft : ∀ op ∈ after, op.operandWidths = [])
    (hjump : jump.operandWidths = [2]) (hsl : jump.jumpOperands = [0]) :
    IsBlock (pre.map opByte ++ [opByte jump] ++ uint16Bytes tgt ++ after.map opByte,
      [pre.length + 1]) := by
  have hinstr : IsInstr (opByte jump :: uint16Bytes tgt) :=
    ⟨_, _, jump, rfl, ofByte?_opByte jump, by simp [Instr.size, hjump, length_uint16Bytes]⟩
  have htgt : ∃ t, jumpTarget? (opByte jump :: uint16Bytes tgt) = some t := by
    rw [jumpTarget?, ofByte?_opByte]
    dsimp only
    rw [if_neg (by simp [hsl])]
    exact ⟨_, rfl⟩
  have hb := isInstr_of_mem_singles hbef
  have ha := isInstr_of_mem_singles haft
  refine ⟨pre.map (fun op => [opByte op]) ++ (opByte jump :: uint16Bytes tgt) ::
    after.map (fun op => [opByte op]), ?_, ?_, ?_, ?_⟩
  · simp [flatten_singles]
  · exact forall_mem_append.mpr ⟨fun d hd => (hb d hd).1,
      forall_mem_cons.mpr ⟨hinstr, fun d hd => (ha d hd).1⟩⟩
  · intro o ho
    rw [mem_singleton] at ho
    simp only [length_append, length_map, length_uint16Bytes]
    omega
  · intro remap own place hown
    obtain ⟨t, ht⟩ := htgt
    have hmem : place + pre.length + 1 ∈ own := by
      have := hown (pre.length + 1) (by simp)
      rwa [← Nat.add_assoc] at this
    rw [rewriteChunks_append, rewriteChunks_of_none hb, flatten_singles, length_map, rewriteChunks]
    -- its own jump is left alone
    rw [(rewriteInstr_of_some hinstr ht).2, if_pos hmem, rewriteChunks_of_none ha, flatten_singles]
    simp

/-- A dead block is a jump over instructions without operands, and the jump is its own. -/
theorem isBlock_generateDeadBlock (place : Nat) (s : σ) :
    IsBlock (generateDeadBlock rng place s).1 ∧
      (generateDeadBlock rng place s).1.1.length ≤ 10 := by
  obtain ⟨ops, hops, hlen, hall⟩ := deadCode_eq rng
    (2 + (rng.intn 4 (rng.intn 1 s).2).1.val) (rng.intn 4 (rng.intn 1 s).2).2
  have hfalse : ∀ op ∈ [Opcode.opFalse], op.operandWidths = [] := by simp; rfl
  have hnone : ∀ op ∈ ([] : List Opcode), op.operandWidths = [] := by simp
  unfold generateDeadBlock
  dsimp only
  rw [hops]
  split_ifs
  · exact ⟨isBlock_nil, by simp⟩
  -- a test of `false` that always jumps
  · refine ⟨isBlock_jumpOver _ hfalse hall (rfl : Opcode.opJumpFalse.operandWidths = _) rfl, ?_⟩
    simp [length_uint16Bytes]
    omega
  · exact ⟨isBlock_nil, by simp⟩
  -- a jump that is always taken
  · refine ⟨isBlock_jumpOver _ hnone hall (rfl : Opcode.opJump.operandWidths = _) rfl, ?_⟩
    simp [length_uint16Bytes]
    omega

/-- Whatever is drawn for an instruction is a block of at most ten bytes. -/
theorem isBlock_drawBlock (rng : Rng σ) (first : Filler) (others : List Filler)
    (cutoff start place : Nat) (s : σ) :
    IsBlock (drawBlock rng first others cutoff start place s).1 ∧
      (drawBlock rng first others cutoff start place s).1.1.length ≤ 10 := by
  unfold drawBlock
  dsimp only
  split_ifs
  · unfold Filler.generate
    split
    · exact isBlock_generateNOP _
    · exact isBlock_generateDeadBlock _ _
  · exact ⟨isBlock_nil, by simp⟩
  · exact ⟨isBlock_nil, by simp⟩

/-- Blocks for a list of instructions: one each. -/
inductive Blocks : List Bytes → List (Bytes × List Nat) → Prop
  | nil : Blocks [] []
  | cons {c cs block blocks} (hc : IsInstr c) (hblock : IsBlock block)
      (hlen : block.1.length ≤ 10) (hrest : Blocks cs blocks) :
      Blocks (c :: cs) (block :: blocks)

theorem blocks_drawBlocks (first : Filler) (others : List Filler) (cutoff start place : Nat)
    (hcs : ∀ c ∈ cs, IsInstr c) (s : σ) :
    Blocks cs (drawBlocks rng first others cutoff start place cs s).1 := by
  induction cs generalizing start place s with
  | nil => exact .nil
  | cons c cs ih =>
    obtain ⟨hblk, hlen⟩ := isBlock_drawBlock rng first others cutoff start (place + c.length) s
    exact .cons (hcs c mem_cons_self) hblk hlen
      (ih _ _ (fun d hd => hcs d (mem_cons_of_mem c hd)) _)

variable {blocks : List (Bytes × List Nat)} {start place : Nat}

theorem Blocks.length_spliced (h : Blocks cs blocks) :
    (spliced cs blocks).length ≤ 11 * cs.flatten.length := by
  induction h with
  | nil => simp [spliced]
  | cons hc _ hlen _ ih =>
    have hpos := hc.length_pos
    simp only [spliced, length_append, flatten_cons]
    omega

/-! ### Repointing what was spliced -/

/-- No own jump operand is where the first instruction would have one. -/
theorem Blocks.own_gt (h : Blocks cs blocks) : ∀ o ∈ ownFrom place cs blocks, place + 1 < o := by
  induction h generalizing place with
  | nil => simp [ownFrom]
  | @cons c cs block blocks hc hblk _ _ ih =>
    intro o ho
    have hpos := hc.length_pos
    rcases mem_append.mp ho with ho | ho
    · obtain ⟨x, hx, rfl⟩ := mem_map.mp ho
      obtain ⟨-, -, -, hin, -⟩ := hblk
      have := hin x hx
      omega
    · have := ih o ho
      omega

/-- The spliced stream with the instructions repointed and the blocks left as they are. -/
def repointed (remap : List (Nat × Nat)) : List Bytes → List (Bytes × List Nat) → Option Bytes
  | c :: cs, block :: blocks =>
    (rewriteInstr remap [] 0 c).bind fun c' =>
      (repointed remap cs blocks).map (c' ++ block.1 ++ ·)
  | _, _ => some []

/-- Where no own jump lies in an instruction, repointing it does not depend on where it is. -/
theorem rewriteInstr_own (hc : IsInstr c) (hown : i + 1 ∉ own) :
    rewriteInstr remap own i c = rewriteInstr remap [] 0 c := by
  cases ht : jumpTarget? c with
  | none => rw [rewriteInstr_of_none hc ht, rewriteInstr_of_none hc ht]
  | some tgt =>
    rw [(rewriteInstr_of_some hc ht).2, (rewriteInstr_of_some hc ht).2, if_neg hown,
      if_neg (not_mem_nil)]

/-- Rewriting the padded stream repoints the instructions and leaves the blocks alone: no jump of an
instruction stands where a block has its own, and no block rewrites another's. -/
theorem Blocks.rewriteChunks_spliced (h : Blocks cs blocks) (place : Nat) (pre : List Nat)
    (hbef : ∀ o ∈ pre, o ≤ place) :
    ∃ ds : List Bytes, spliced cs blocks = ds.flatten ∧ (∀ d ∈ ds, IsInstr d) ∧
      rewriteChunks remap (pre ++ ownFrom place cs blocks) place ds =
        repointed remap cs blocks := by
  induction h generalizing place pre with
  | nil => exact ⟨[], rfl, by simp, rfl⟩
  | @cons c cs block blocks hc hblk hlen hrest ih =>
    have hgt : ∀ o ∈ ownFrom place (c :: cs) (block :: blocks), place + 1 < o :=
      (Blocks.cons hc hblk hlen hrest).own_gt
    obtain ⟨es, hes, hall, hin, hkeep⟩ := hblk
    -- the own jumps of this block are behind the instructions that follow it
    obtain ⟨ds, hds, hall', hrw⟩ := ih (place + c.length + block.1.length)
      (pre ++ block.2.map (place + c.length + ·)) (by
        intro o ho
        rcases mem_append.mp ho with ho | ho
        · have := hbef o ho
          omega
        · obtain ⟨x, hx, rfl⟩ := mem_map.mp ho
          have := (hin x hx).2
          omega)
    have hown : pre ++ ownFrom place (c :: cs) (block :: blocks) =
        pre ++ block.2.map (place + c.length + ·) ++
          ownFrom (place + c.length + block.1.length) cs blocks := by
      rw [ownFrom, append_assoc]
    -- the operand of `c` lies between what came before and the own jumps of the blocks after it
    have hnot : place + 1 ∉ pre ++ ownFrom place (c :: cs) (block :: blocks) := by
      intro hmem
      rcases mem_append.mp hmem with hmem | hmem
      · have := hbef _ hmem
        omega
      · exact absurd (hgt _ hmem) (Nat.lt_irrefl _)
    refine ⟨c :: (es ++ ds), ?_, ?_, ?_⟩
    · simp [spliced, hes, hds]
    · exact forall_mem_cons.mpr ⟨hc, forall_mem_append.mpr ⟨hall, hall'⟩⟩
    · rw [rewriteChunks, rewriteInstr_own hc hnot]
      congr 1
      funext c'
      rw [rewriteChunks_append, hkeep _ _ (place + c.length), Option.bind_some, ← hes, hown,
        Option.map_map]
      · congr 1
        funext rest
        simp
      · intro o ho
        rw [hown]
        simp [ho]

/-- Repointing succeeds exactly when every jump can be repointed, and then each instruction is in
the result where it was spliced. -/
theorem Blocks.repointed_cases (h : Blocks cs blocks) (start place : Nat) :
    ((∀ c ∈ cs, Repointable remap c) ∧ ∃ out, repointed remap cs blocks = some out ∧
      ∀ x ∈ (offsetsFrom start cs).map Prod.fst, ∃ n, (x, n) ∈ placements start place cs blocks ∧
        start ≤ x ∧ place ≤ n ∧ out[n - place]? = cs.flatten[x - start]?) ∨
    ((¬ ∀ c ∈ cs, Repointable remap c) ∧ repointed remap cs blocks = none) := by
  induction h generalizing start place with
  | nil => exact .inl ⟨by simp, [], rfl, by simp [offsetsFrom]⟩
  | @cons c cs block blocks hc hblk hlen hrest ih =>
    have hpos := hc.length_pos
    rcases rewriteInstr_cases remap hc with ⟨hrep, c', hrw, hlength, hhead⟩ | ⟨hnot, hrw⟩
    · rcases ih (start + c.length) (place + c.length + block.1.length) with
        ⟨hall, out, hout, hpl⟩ | ⟨hnot, hout⟩
      -- the rewritten instruction is as long as it was, so the rest moves by the blocks alone
      · refine .inl ⟨?_, c' ++ block.1 ++ out, by rw [repointed, hrw, hout]; rfl, ?_⟩
        · exact forall_mem_cons.mpr ⟨hrep, hall⟩
        · intro x hx
          rcases mem_cons.mp hx with rfl | hx
          · refine ⟨place, mem_cons_self, Nat.le_refl _, Nat.le_refl _, ?_⟩
            rw [Nat.sub_self, Nat.sub_self, flatten_cons, append_assoc,
              getElem?_append_left (by omega), getElem?_append_left hpos,
              ← head?_eq_getElem?, ← head?_eq_getElem?, hhead]
          · obtain ⟨n, hn, hst, hplace, hbyte⟩ := hpl x hx
            refine ⟨n, mem_cons_of_mem _ hn, by omega, by omega, ?_⟩
            have hfr : (c' ++ block.1).length ≤ n - place := by
              rw [length_append]
              omega
            rw [getElem?_append_right hfr, flatten_cons,
              getElem?_append_right (by omega), Nat.sub_sub, Nat.sub_sub, ← hbyte,
              length_append, hlength, Nat.add_assoc]
      · refine .inr ⟨fun hall => hnot fun d hd => hall d (mem_cons_of_mem c hd), ?_⟩
        rw [repointed, hrw, hout]
        rfl
    · refine .inr ⟨fun hall => hnot (hall c mem_cons_self), ?_⟩
      rw [repointed, hrw]
      rfl

/-! ### The offset map -/

section

variable (h : Blocks cs blocks)

include h

/-- Blocks only push instructions back, and none past the end. -/
theorem Blocks.placements_bounds (start place : Nat) :
    ∀ x ∈ placements start place cs blocks, start ≤ x.1 ∧ x.1 + place ≤ x.2 + start ∧
      x.1 ≤ start + cs.flatten.length ∧ x.2 ≤ place + (spliced cs blocks).length := by
  induction h generalizing start place with
  | nil => simp [placements, Nat.add_comm]
  | @cons c cs block blocks _ _ _ _ ih =>
    intro x hx
    simp only [spliced, length_append, flatten_cons]
    rcases mem_cons.mp hx with rfl | hx
    · omega
    · have := ih _ _ x hx
      omega

/-- Instructions move apart but never past one another. -/
theorem Blocks.placements_pairwise (start place : Nat) :
    (placements start place cs blocks).Pairwise fun x y => x.1 < y.1 ∧ x.2 < y.2 := by
  induction h generalizing start place with
  | nil => simp [placements]
  | @cons c cs block blocks hc _ _ hrest ih =>
    refine pairwise_cons.mpr ⟨?_, ih _ _⟩
    intro y hy
    have hpos := hc.length_pos
    have := hrest.placements_bounds _ _ y hy
    omega

/-- The end of the stream has a place, as every instruction has. -/
theorem Blocks.end_mem_placements (start place : Nat) :
    (start + cs.flatten.length, place + (spliced cs blocks).length) ∈
      placements start place cs blocks := by
  induction h generalizing start place with
  | nil => simp [placements, spliced]
  | @cons c cs block blocks _ _ _ _ ih =>
    refine mem_cons_of_mem _ ?_
    have := ih (start + c.length) (place + c.length + block.1.length)
    simp only [spliced, length_append, flatten_cons]
    convert this using 2 <;> omega

end

/-- In a list whose keys are distinct, a key is looked up to what stands with it. -/
theorem lookup_eq_some_iff_mem {α β : Type} [DecidableEq α] {l : List (α × β)}
    (h : (l.map Prod.fst).Nodup) {k : α} {v : β} : l.lookup k = some v ↔ (k, v) ∈ l := by
  rw [lookup_eq_some_iff]
  constructor
  · rintro ⟨l₁, l₂, rfl, -⟩
    simp
  · intro hmem
    obtain ⟨l₁, l₂, rfl⟩ := append_of_mem hmem
    refine ⟨l₁, l₂, rfl, ?_⟩
    intro p hp
    rw [map_append, nodup_append] at h
    simpa using (h.2.2 p.1 (mem_map_of_mem hp) k (by simp)).symm

/-- Offsets below `2 ^ 63` are ordered as integers of the machine as they are. -/
theorem ofNat_le_ofNat {a b : Nat} (ha : a < 2 ^ 63) (hb : b < 2 ^ 63) :
    Int64.ofNat a ≤ Int64.ofNat b ↔ a ≤ b := by
  rw [le_iff_toInt_le, toInt_ofNat_of_lt ha, toInt_ofNat_of_lt hb]
  omega

theorem ofNat_nonneg {a : Nat} (ha : a < 2 ^ 63) : 0 ≤ Int64.ofNat a := by
  rw [le_iff_toInt_le, toInt_ofNat_of_lt ha]
  simp

theorem ofNat_inj {a b : Nat} (ha : a < 2 ^ 63) (hb : b < 2 ^ 63)
    (h : Int64.ofNat a = Int64.ofNat b) : a = b := by
  have := congrArg toInt h
  rw [toInt_ofNat_of_lt ha, toInt_ofNat_of_lt hb] at this
  omega

section

variable (hl : l.Pairwise fun x y => x.1 < y.1 ∧ x.2 < y.2)

include hl

/-- In a list ordered by both components, either orders its members alike. -/
theorem pairwise_le_iff : ∀ x ∈ l, ∀ y ∈ l, (x.1 ≤ y.1 ↔ x.2 ≤ y.2) ∧ (y.1 ≤ x.1 ↔ y.2 ≤ x.2) := by
  have hsymm : Std.Symm fun x y : Nat × Nat =>
      (x.1 ≤ y.1 ↔ x.2 ≤ y.2) ∧ (y.1 ≤ x.1 ↔ y.2 ≤ x.2) := ⟨fun x y h => ⟨h.2, h.1⟩⟩
  have hpairs := hl.imp fun {x y} h =>
    show (x.1 ≤ y.1 ↔ x.2 ≤ y.2) ∧ (y.1 ≤ x.1 ↔ y.2 ≤ x.2) by omega
  exact fun x hx y hy => hpairs.forall_of_forall (fun x _ => by omega) hx hy

/-- Each offset of the map is looked up to where it goes. -/
theorem lookup_asOffsets
    (hsm : ∀ x ∈ l, x.1 < 2 ^ 63 ∧ x.2 < 2 ^ 63) {n v : Nat} (hmem : (n, v) ∈ l) :
    (asOffsets l).lookup (Int64.ofNat n) = some (Int64.ofNat v) := by
  have hkeys : ((asOffsets l).map Prod.fst).Nodup := by
    rw [asOffsets, map_map, Nodup, pairwise_map]
    refine hl.imp_of_mem ?_
    intro x y hx hy hlt heq
    have := ofNat_inj (hsm x hx).1 (hsm y hy).1 heq
    omega
  rw [lookup_eq_some_iff_mem hkeys]
  exact mem_map.mpr ⟨(n, v), hmem, rfl⟩

/-- A map that keeps the order moves the tables. -/
theorem moves_asOffsets (hsm : ∀ x ∈ l, x.1 < 2 ^ 63 ∧ x.2 < 2 ^ 63) :
    Moves (asOffsets l) (fun ip => ((asOffsets l).lookup ip).getD 0)
      (fun ip => ∃ n v, ip = Int64.ofNat n ∧ (n, v) ∈ l) := by
  have hlook (n v : Nat) (hmem : (n, v) ∈ l) := lookup_asOffsets hl hsm hmem
  refine ⟨?_, ?_, ?_⟩
  · rintro ip ⟨n, v, rfl, hmem⟩
    rw [hlook n v hmem, Option.getD_some]
  · rintro ip ⟨n, v, rfl, hmem⟩
    rw [hlook n v hmem]
    exact ofNat_nonneg (hsm _ hmem).2
  · rintro ip ip' ⟨n, v, rfl, hmem⟩ ⟨n', v', rfl, hmem'⟩
    rw [hlook n v hmem, hlook n' v' hmem']
    have h := hsm _ hmem
    have h' := hsm _ hmem'
    change _ ↔ ofNat v ≤ ofNat v'
    rw [ofNat_le_ofNat h.1 h'.1, ofNat_le_ofNat h.2 h'.2]
    exact (pairwise_le_iff hl (n, v) hmem (n', v') hmem').1

end

/-! ### One stream -/

variable {first : Filler} {others : List Filler} {r : StreamRun σ}

/-- The blocks drawn in a run over the instructions `cs`. -/
def StreamRun.drawn (rng : Rng σ) (first : Filler) (others : List Filler) (r : StreamRun σ)
    (cs : List Bytes) : List (Bytes × List Nat) × σ :=
  drawBlocks rng first others (paddingCutoff r.stream.instructions
    (instructionStarts r.stream.instructions) r.protectFinalPop) 0 0 cs r.rng

theorem StreamRun.blocks_drawn (hcs : ∀ c ∈ cs, IsInstr c) :
    Blocks cs (r.drawn rng first others cs).1 := blocks_drawBlocks first others _ 0 0 hcs r.rng

/-- What repointing a spliced stream gives. -/
theorem rewriteJumpTargets_spliced (h : Blocks cs blocks) :
    rewriteJumpTargets (spliced cs blocks) remap (ownFrom 0 cs blocks) =
      repointed remap cs blocks := by
  obtain ⟨ds, hds, hall, hrw⟩ := h.rewriteChunks_spliced 0 [] (by simp)
  rw [← hrw, hds]
  exact @read_flatten _ _ _
    (fun i d out => (rewriteInstr remap _ i d).bind fun d' => out.map (d' ++ ·)) (rewriteChunks remap _)
    (fun fuel _ => by cases fuel <;> rfl) (fun rest hd => rewriteFrom_cons hd rest)
    (fun _ _ _ => rfl) hall 0

/-- Padding a stream that decodes: it is repointed, or left as it was. -/
theorem StreamRun.result_eq (hins : r.stream.instructions = cs.flatten)
    (hcs : ∀ c ∈ cs, IsInstr c) (hne : cs ≠ []) : let blocks := (r.drawn rng first others cs).1
    let remap := placements 0 0 cs blocks
    (r.result rng (first :: others)).1 =
      ((repointed remap cs blocks).map fun out => (out, some remap)).getD
        (r.stream.instructions, none) := by
  dsimp only [drawn]
  have hdec := decodeBoundaries_flatten hcs
  have hsts := instructionStarts_flatten hcs
  rw [← hins] at hdec hsts
  obtain ⟨hremap, hpadded, hown, -⟩ := foldl_padStep rng first others (paddingCutoff
    r.stream.instructions ((offsetsFrom 0 cs).map Prod.fst) r.protectFinalPop) [] cs
    ⟨[], [], [], r.rng⟩
  -- the loop starts from nothing, at offset 0
  simp only [length_nil, nil_append, Nat.zero_add, ← hins, ← hsts] at hremap hpadded hown
  obtain ⟨c, cs, rfl⟩ := exists_cons_of_ne_nil hne
  rw [offsetsFrom] at hdec hsts hremap hpadded hown
  unfold result padInstructions
  rw [hdec]
  dsimp only
  rw [← hsts, hremap, hpadded, hown, rewriteJumpTargets_spliced (blocks_drawBlocks _ _ _ _ _ hcs _)]
  generalize repointed _ _ _ = out
  cases out <;> rfl

theorem Blocks.nodup_placements (h : Blocks cs blocks) (start place : Nat) :
    ((placements start place cs blocks).map Prod.fst).Nodup := by
  rw [Nodup, pairwise_map]
  exact (h.placements_pairwise start place).imp fun hlt => Nat.ne_of_lt hlt.1

theorem Blocks.repointable_iff (h : Blocks cs blocks) :
    Repointable (placements 0 0 cs blocks) c ↔ ∀ tgt, jumpTarget? c = some tgt →
      ∃ n, (tgt, n) ∈ placements 0 0 cs blocks ∧ n ≤ maxUint16 := by
  unfold Repointable
  simp only [lookup_eq_some_iff_mem (h.nodup_placements 0 0)]

/-- A run over a stream that can be padded moves each instruction to its place. -/
theorem StreamRun.result_of_paddable (h : Paddable rng first others r)
    (hne : r.stream.instructions ≠ []) :
    ∃ cs blocks out, r.stream.instructions = cs.flatten ∧ Blocks cs blocks ∧
      (r.result rng (first :: others)).1 = (out, some (placements 0 0 cs blocks)) ∧
      ∀ x ∈ instructionStarts r.stream.instructions, ∃ n, (x, n) ∈ placements 0 0 cs blocks ∧
        out[n]? = r.stream.instructions[x]? := by
  obtain ⟨cs, hins, hcs, hjumps⟩ := h
  have hne' : cs ≠ [] := by
    rintro rfl
    exact hne hins
  have hbs : Blocks cs (r.drawn rng first others cs).1 := blocks_drawn hcs
  have hall : ∀ c ∈ cs, Repointable (placements 0 0 cs (r.drawn rng first others cs).1) c :=
    fun c hc => hbs.repointable_iff.mpr (hjumps c hc)
  rcases hbs.repointed_cases 0 0 with ⟨-, out, hout, hpl⟩ | ⟨hnot, -⟩
  · refine ⟨cs, _, out, hins, hbs, by rw [result_eq hins hcs hne', hout]; rfl, ?_⟩
    intro x hx
    rw [hins, instructionStarts_flatten hcs] at hx
    obtain ⟨n, hn, -, -, hbyte⟩ := hpl x hx
    refine ⟨n, hn, ?_⟩
    rw [hins]
    simpa using hbyte
  · exact absurd hall hnot

/-- A run over a stream that cannot be padded leaves it as it was. -/
theorem StreamRun.result_of_not_paddable (h : ¬ Paddable rng first others r) :
    (r.result rng (first :: others)).1 = (r.stream.instructions, none) := by
  cases hdec : decodeBoundaries r.stream.instructions with
  | none =>
    unfold result padInstructions
    rw [hdec]
  | some bs =>
    obtain ⟨cs, hins, hcs⟩ := exists_instrs_of_boundariesFrom hdec
    by_cases hne : cs = []
    · refine absurd ⟨cs, hins, hcs, ?_⟩ h
      subst hne
      intro cutoff c hc
      cases hc
    have hbs : Blocks cs (r.drawn rng first others cs).1 := blocks_drawn hcs
    rcases hbs.repointed_cases 0 0 with ⟨hall, -⟩ | ⟨-, hnone⟩
    · exact absurd ⟨cs, hins, hcs, fun c hc => hbs.repointable_iff.mp (hall c hc)⟩ h
    · rw [result_eq hins hcs hne, hnone]
      rfl

theorem Blocks.placements_small (h : Blocks cs blocks) (hmem : 11 * cs.flatten.length < 2 ^ 63) :
    ∀ x ∈ placements 0 0 cs blocks, x.1 < 2 ^ 63 ∧ x.2 < 2 ^ 63 := by
  intro x hx
  have hbds := h.placements_bounds 0 0 x hx
  have hlen := h.length_spliced
  omega

/-- A table of the stream answers at the new offset of an instruction what it answered. -/
theorem Blocks.remap_at {t : LineTable} {n : Nat} (h : Blocks cs blocks)
    (hmem : 11 * cs.flatten.length < 2 ^ 63)
    (hsts : ∀ n ∈ instructionStarts cs.flatten, ∃ v, (n, v) ∈ placements 0 0 cs blocks)
    (ht : RecordedAt (fun ip => ∃ n, ip = Int64.ofNat n ∧
      (n ∈ instructionStarts cs.flatten ∨ n = cs.flatten.length)) t)
    (hn : (start, n) ∈ placements 0 0 cs blocks) :
    (t.remap (some (asOffsets (placements 0 0 cs blocks)))).at (Int64.ofNat n) =
      t.at (Int64.ofNat start) := by
  have hmoves := moves_asOffsets (h.placements_pairwise 0 0) (h.placements_small hmem)
  -- every offset a table may record has a place
  have hpl : RecordedAt (fun ip => ∃ n v, ip = Int64.ofNat n ∧
      (n, v) ∈ placements 0 0 cs blocks) t := by
    refine ht.mono ?_
    rintro ip ⟨n, rfl, hst | rfl⟩
    · obtain ⟨v, hv⟩ := hsts n hst
      exact ⟨n, v, rfl, hv⟩
    · have hend := h.end_mem_placements 0 0
      rw [Nat.zero_add] at hend
      exact ⟨_, _, rfl, hend⟩
  have hat := Mutant.Code.remap_at hpl hmoves ⟨start, n, rfl, hn⟩
    (ofNat_nonneg (h.placements_small hmem _ hn).1)
  rw [lookup_asOffsets (h.placements_pairwise 0 0) (h.placements_small hmem) hn] at hat
  exact hat

/-- A stream that can be padded keeps its positions. -/
theorem StreamRun.kept_of_paddable (h : Paddable rng first others r)
    (hrec : WellRecorded r.stream) (hmem : Addressable r.stream) :
    PositionsKept r.stream (r.after rng (first :: others)) (r.newOffset rng (first :: others)) := by
  intro start hst
  have hne : r.stream.instructions ≠ [] := by
    intro hnil
    rw [hnil] at hst
    cases hst
  obtain ⟨cs, blocks, out, hins, hbs, hres, hpl⟩ := r.result_of_paddable h hne
  obtain ⟨n, hn, hbyte⟩ := hpl start hst
  unfold WellRecorded at hrec
  rw [Addressable, hins] at hmem
  rw [hins] at hrec
  refine ⟨n, ?_, ?_, ?_⟩
  · unfold newOffset
    rw [hres]
    exact (lookup_eq_some_iff_mem (hbs.nodup_placements 0 0)).mpr hn
  · unfold after
    rw [hres]
    exact hbyte
  · unfold after
    rw [hres]
    -- the three tables of the stream are remapped alike
    have hat (t : LineTable) (ht : t ∈ r.stream.tables) := hbs.remap_at hmem
      (fun x hx => (hpl x (hins ▸ hx)).imp fun _ => And.left) (hrec t ht) hn
    exact .cons (hat _ (by simp [Stream.tables])) (.cons (hat _ (by simp [Stream.tables]))
      (.cons (hat _ (by simp [Stream.tables])) .nil))

/-- A stream that was left as it was keeps its positions exactly when it has none. -/
theorem StreamRun.kept_iff_of_not_paddable (h : ¬ Paddable rng first others r) :
    PositionsKept r.stream (r.after rng (first :: others)) (r.newOffset rng (first :: others)) ↔
      Unrecorded r.stream := by
  have hres := r.result_of_not_paddable h
  have haft : r.after rng (first :: others) = ⟨r.stream.instructions, [], [], []⟩ := by
    unfold after
    rw [hres]
    rfl
  have hoff (start : Nat) : r.newOffset rng (first :: others) start = some start := by
    unfold newOffset
    rw [hres]
  have hemp (ip : Int64) : LineTable.at [] ip = none := rfl
  refine forall₂_congr fun start hst => ?_
  rw [haft, hoff]
  simp [Stream.tables, hemp, @eq_comm _ none]

/-! ### The pass -/

variable {gens : List Filler}

/-- The runs over the constant pool are over its functions, in order. -/
theorem constantRuns_stream (constants : List Constant) (s : σ) :
    (constantRuns rng gens constants s).map StreamRun.stream = constants.filterMap fun
        | .compiledFunction stream => some stream
        | .other => none := by
  induction constants generalizing s with
  | nil => rfl
  | cons k constants ih =>
    cases k with
    | other => exact ih s
    | compiledFunction stream => exact congrArg (stream :: ·) (ih _)

/-- The runs of the pass are over the streams of the program. -/
theorem streamRuns_stream (bc : ByteCode) (s : σ) :
    (streamRuns rng gens bc s).map StreamRun.stream = bc.streams :=
  congrArg (bc.main :: ·) (constantRuns_stream bc.constants _)

/-- What the runs leave is the functions of the new pool. -/
theorem streams_spliceConstants (constants : List Constant) (s : σ) :
    (constantRuns rng gens constants s).map (StreamRun.after rng gens) =
      (spliceConstants rng gens constants s).1.filterMap fun
        | .compiledFunction stream => some stream
        | .other => none := by
  induction constants generalizing s with
  | nil => rfl
  | cons k constants ih =>
    cases k with
    | other => exact ih s
    | compiledFunction stream => exact congrArg (_ :: ·) (ih _)

/-- Each run gives one stream of the program after the pass. -/
theorem streams_spliceFillers {config : MutationConfig} (bc : ByteCode) (s : σ)
    (hgens : fillerGenerators config ≠ []) :
    (spliceFillers rng config bc s).1.streams = (streamRuns rng (fillerGenerators config) bc s).map
        (StreamRun.after rng (fillerGenerators config)) := by
  unfold spliceFillers
  rw [if_neg (by simpa using hgens)]
  exact (congrArg (_ :: ·) (streams_spliceConstants bc.constants _)).symm

/-- With nothing to splice in, an instruction is where it was. -/
theorem StreamRun.newOffset_nil (start : Nat) : r.newOffset rng [] start = some start := by
  have hres : (r.result rng []).1.2 = none := by
    unfold result padInstructions
    split <;> simp_all
  unfold newOffset
  rw [hres]

/-- A stream that is not touched keeps its positions. -/
theorem positionsKept_refl (stream : Stream) : PositionsKept stream stream some :=
  fun start _ => ⟨start, rfl, rfl, forall₂_same.mpr fun _ _ => rfl⟩

/-- One run keeps the positions of its stream exactly when it can pad it, or there is nothing to
keep. -/
theorem StreamRun.kept_iff (hrec : WellRecorded r.stream) (hmem : Addressable r.stream) :
    PositionsKept r.stream (r.after rng (first :: others)) (r.newOffset rng (first :: others)) ↔
      r.CanPad rng (first :: others) ∨ Unrecorded r.stream := by
  by_cases h : Paddable rng first others r
  · have hpad : r.CanPad rng (first :: others) := ⟨first, others, rfl, h⟩
    exact iff_of_true (r.kept_of_paddable h hrec hmem) (.inl hpad)
  · have hpad : ¬ r.CanPad rng (first :: others) := by
      rintro ⟨_, _, heq, hpad⟩
      obtain ⟨rfl, rfl⟩ := cons.inj heq
      exact h hpad
    rw [r.kept_iff_of_not_paddable h, or_iff_right hpad]

/-- Positions survive the pass exactly when it has nothing to splice in, or each stream that
records a position at an instruction can be padded: it decodes, and its jumps go to instructions
or to the end, at offsets that fit once the drawn blocks are in. -/
theorem spliceFillers_keepsPositions_iff (rng : Rng σ) (config : MutationConfig) (bc : ByteCode)
    (s : σ) (hrec : ∀ stream ∈ bc.streams, WellRecorded stream)
    (hmem : ∀ stream ∈ bc.streams, Addressable stream) :
    PassKeepsPositions rng config bc s ↔ fillerGenerators config = [] ∨
      ∀ r ∈ streamRuns rng (fillerGenerators config) bc s,
        r.CanPad rng (fillerGenerators config) ∨ Unrecorded r.stream := by
  unfold PassKeepsPositions
  by_cases hgens : fillerGenerators config = []
  · -- nothing to splice in: the program is returned as it is
    have hsame : (spliceFillers rng config bc s).1.streams =
        (streamRuns rng [] bc s).map stream := by
      rw [streamRuns_stream]
      unfold spliceFillers
      rw [hgens]
      rfl
    refine iff_of_true ?_ (.inl hgens)
    rw [hsame, hgens, forall₂_map_right_iff]
    refine forall₂_same.mpr fun r _ => ?_
    have hoffset : r.newOffset rng [] = some := funext fun start => r.newOffset_nil start
    rw [hoffset]
    exact positionsKept_refl r.stream
  · rw [streams_spliceFillers bc s hgens, forall₂_map_right_iff, forall₂_same, or_iff_right hgens]
    obtain ⟨first, others, hcons⟩ := exists_cons_of_ne_nil hgens
    rw [hcons]
    refine forall₂_congr fun r hr => r.kept_iff ?_ ?_
    all_goals
      have hstream : r.stream ∈ bc.streams := by
        rw [← streamRuns_stream bc s]
        exact mem_map_of_mem hr
    · exact hrec _ hstream
    · exact hmem _ hstream

/-- A source that always draws, and always the first choice. -/
def eager : Rng Unit := ⟨fun s => (true, s), fun _ s => (0, s)⟩

/-- A function that jumps over an instruction. -/
def shortJump : Stream where
  instructions := [15, 0, 4, 16, 1, 16]
  lineTable := (({} : LineTableBuilder).add ⟨0, 1, 1⟩ |>.add ⟨4, 2, 5⟩).build
  macroTable := []
  endTable := []

/-- A jump to the end of a short stream can be repointed wherever the blocks go. -/
theorem shortJump_canPad (protectFinalPop : Bool) :
    StreamRun.CanPad eager [.nop, .deadBlock] ⟨protectFinalPop, shortJump, ()⟩ := by
  have hnull : IsInstr [16] ∧ jumpTarget? [16] = none :=
    isInstr_single (show Opcode.opNull.operandWidths = [] from rfl)
  have hpop : IsInstr [1] ∧ jumpTarget? [1] = none :=
    isInstr_single (show Opcode.opPop.operandWidths = [] from rfl)
  refine ⟨.nop, [.deadBlock], rfl, [[15, 0, 4], [16], [1], [16]], rfl, ?_, ?_⟩
  · simp only [mem_cons, not_mem_nil, or_false, forall_eq_or_imp, forall_eq]
    exact ⟨⟨15, _, .opJump, rfl, by decide, by decide⟩, hnull.1, hpop.1, hnull.1⟩
  · have hjump : jumpTarget? [15, 0, 4] = some 4 := by decide
    simp only [mem_cons, not_mem_nil, forall_eq_or_imp, hnull.2, hpop.2, hjump, reduceCtorEq,
      false_imp_iff, implies_true, and_true, Option.some.injEq, forall_eq']
    cases protectFinalPop
    · exact ⟨8, by decide +kernel, by decide⟩
    · exact ⟨8, by decide +kernel, by decide⟩

/-- A program of two such streams keeps its positions with both fillers on. -/
theorem spliceFillers_keepsPositions_shortJump :
    PassKeepsPositions eager ⟨true, true⟩ ⟨shortJump, [.other, .compiledFunction shortJump]⟩ () := by
  refine (spliceFillers_keepsPositions_iff eager ⟨true, true⟩ _ () ?_ ?_).mpr (.inr ?_)
  · have hshort : WellRecorded shortJump := by
      simp only [WellRecorded, Stream.tables, mem_cons, not_mem_nil, or_false]
      rintro t (rfl | rfl | rfl)
      · refine ⟨[.add ⟨0, 1, 1⟩, .add ⟨4, 2, 5⟩], ?_, rfl⟩
        simp only [mem_cons, not_mem_nil, or_false, forall_eq_or_imp, forall_eq]
        exact ⟨⟨0, rfl, by decide⟩, ⟨4, rfl, by decide⟩⟩
      · exact ⟨[], by simp, rfl⟩
      · exact ⟨[], by simp, rfl⟩
    simp [ByteCode.streams, hshort]
  · have hshort : Addressable shortJump := by unfold Addressable; decide
    simp [ByteCode.streams, hshort]
  · intro r hr
    rcases mem_cons.mp hr with rfl | hr
    · exact .inl (shortJump_canPad true)
    · rcases mem_singleton.mp hr with rfl
      exact .inl (shortJump_canPad false)

/-! ### A stream that is left as it was -/

theorem drawBlocks_cons (start place : Nat) (s : σ) (cutoff : Nat) :
    (drawBlocks rng first others cutoff start place (c :: cs) s).1 =
      (drawBlock rng first others cutoff start (place + c.length) s).1 ::
        (drawBlocks rng first others cutoff (start + c.length) (place + c.length +
            (drawBlock rng first others cutoff start (place + c.length) s).1.1.length) cs
          (drawBlock rng first others cutoff start (place + c.length) s).2).1 :=
  rfl

theorem length_drawBlock_eager {cutoff place : Nat} (h : start < cutoff) :
    (drawBlock eager .nop [] cutoff start place ()).1.1.length = 2 := by
  rw [drawBlock, if_pos h]
  rfl

/-- A stream as long as an operand can address, that begins with a jump to its end. -/
def longJump : Stream where
  instructions := [15, 255, 255] ++ List.replicate 65532 16
  lineTable := (({} : LineTableBuilder).add ⟨0, 1, 1⟩).build
  macroTable := []
  endTable := []

theorem isInstr_longJump : IsInstr [15, 255, 255] := ⟨15, _, .opJump, rfl, by decide, by decide⟩

theorem length_longJump : longJump.instructions.length = 65534 + 1 := by
  rw [longJump, length_append, length_replicate]
  rfl

theorem zero_mem_instructionStarts_longJump : 0 ∈ instructionStarts longJump.instructions := by
  rw [instructionStarts, length_longJump, longJump, startsFrom_cons isInstr_longJump]
  exact mem_cons_self

theorem le_of_mem_offsetsFrom {x : Nat × Nat} (h : x ∈ offsetsFrom i cs) : i ≤ x.1 := by
  induction cs generalizing i with
  | nil => cases h
  | cons c cs ih =>
    rcases mem_cons.mp h with rfl | h
    · exact Nat.le_refl _
    · exact Nat.le_trans (Nat.le_add_right _ _) (ih h)

/-- However the stream is cut into instructions, the jump is the first of them. -/
theorem longJump_cut (hins : longJump.instructions = cs.flatten) (hcs : ∀ c ∈ cs, IsInstr c) :
    ∃ ds, cs = [15, 255, 255] :: ds ∧ ds ≠ [] := by
  have hlen := length_longJump
  rw [hins] at hlen
  cases cs with
  | nil => cases hlen
  | cons c ds =>
    obtain ⟨b, operands, op, rfl, hop, hwd⟩ := hcs c mem_cons_self
    obtain ⟨rfl, htail⟩ := cons.inj hins
    obtain rfl : op = .opJump := by
      have hbyte : Opcode.ofByte? (15 : UInt8).toNat = some .opJump := by decide
      exact Option.some.inj (hop.symm.trans hbyte)
    have htwo : operands.length = ([255, 255] : Bytes).length := Nat.succ.inj hwd
    have hjoined : ([255, 255] : Bytes) ++ _ = operands ++ ds.flatten := htail
    obtain ⟨rfl, -⟩ := append_inj hjoined htwo.symm
    refine ⟨ds, rfl, ?_⟩
    rintro rfl
    cases hlen

/-- The first block takes two bytes, so the end moves past what the operand holds. -/
theorem longJump_pushed {cutoff n : Nat} (h : 0 < cutoff) (hds : ∀ d ∈ ds, IsInstr d)
    (hn : (65535, n) ∈ placements 0 0 ([15, 255, 255] :: ds)
      (drawBlocks eager .nop [] cutoff 0 0 ([15, 255, 255] :: ds) ()).1) : maxUint16 < n := by
  rw [drawBlocks_cons, placements, length_drawBlock_eager h] at hn
  rcases mem_cons.mp hn with heq | hn
  · cases heq
  · have hpushed := (blocks_drawBlocks _ _ _ _ _ hds _).placements_bounds _ _ _ hn
    unfold maxUint16
    omega

/-- The block after the first instruction pushes the end of the stream beyond what an operand holds.
-/
theorem longJump_not_paddable : ¬ Paddable eager .nop [] ⟨false, longJump, ()⟩ := by
  rintro ⟨cs, hins, hcs, hjump⟩
  obtain ⟨ds, rfl, hds⟩ := longJump_cut hins hcs
  -- the stream has a second instruction, so the first is before the cutoff
  have hcutoff : 0 < paddingCutoff longJump.instructions
      (instructionStarts longJump.instructions) false := by
    obtain ⟨d, ds, rfl⟩ := exists_cons_of_ne_nil hds
    rw [hins, instructionStarts_flatten hcs]
    have hmem : (((offsetsFrom 0 ([15, 255, 255] :: d :: ds)).map Prod.fst).getLastD 0) ∈
        (offsetsFrom 3 (d :: ds)).map Prod.fst := by
      simp only [offsetsFrom, map_cons, getLastD_cons]
      exact getLastD_mem_cons
    obtain ⟨x, hx, heq⟩ := mem_map.mp hmem
    have hthree := le_of_mem_offsetsFrom hx
    rw [paddingCutoff, if_neg Bool.false_ne_true]
    omega
  obtain ⟨n, hn, hle⟩ := hjump _ mem_cons_self 65535 (by decide)
  exact Nat.not_lt_of_le hle (longJump_pushed hcutoff (forall_mem_cons.mp hcs).2 hn)

/-- A program that has the long jump as its only function. -/
def longProgram : ByteCode := ⟨⟨[], [], [], []⟩, [.compiledFunction longJump]⟩

/-- One block pushes the end of the stream out of the reach of its jump, so the stream is left as
it was; the position of its first instruction is lost all the same. -/
theorem longProgram_losesPositions :
    (∀ stream ∈ longProgram.streams, WellRecorded stream ∧ Addressable stream) ∧
      ¬ PassKeepsPositions eager ⟨true, false⟩ longProgram () := by
  constructor
  · intro stream hstream
    rcases mem_cons.mp hstream with rfl | hstream
    · refine ⟨fun t ht => ⟨[], by simp, ?_⟩, by unfold Addressable; decide⟩
      simpa [longProgram, Stream.tables, LineTableBuilder.build] using ht
    · obtain rfl : stream = longJump := mem_singleton.mp hstream
      refine ⟨?_, by rw [Addressable, length_longJump]; decide⟩
      simp only [WellRecorded, Stream.tables, mem_cons, not_mem_nil, or_false]
      rintro t (rfl | rfl | rfl)
      · refine ⟨[.add ⟨0, 1, 1⟩], ?_, rfl⟩
        simp only [mem_singleton, forall_eq]
        exact ⟨0, rfl, .inl zero_mem_instructionStarts_longJump⟩
      · exact ⟨[], by simp, rfl⟩
      · exact ⟨[], by simp, rfl⟩
  -- the stream records a position at its start, and the pass drops the table
  · intro hkept
    unfold PassKeepsPositions at hkept
    rw [streams_spliceFillers _ _ (by decide), forall₂_map_right_iff, forall₂_same] at hkept
    have hrun := hkept ⟨false, longJump, ()⟩ (mem_cons_of_mem _ mem_cons_self)
    have hnone := (kept_iff_of_not_paddable longJump_not_paddable).mp hrun
    have hat := hnone 0 zero_mem_instructionStarts_longJump longJump.lineTable mem_cons_self
    cases hat

end Mutant.Polymorphic
