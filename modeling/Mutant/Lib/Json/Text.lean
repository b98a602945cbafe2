import Mutant.Lib.Decimal
import Mutant.Lib.Hex
import Mutant.Lib.Utf8

/-!
# JSON text

How a string is written between quotes and read back, and how a text is cut into tokens.  Writing
replaces bytes that are not UTF-8, so a string is read back repaired (`stringBody_quote`).
-/

namespace Json

open List Utf8 Option

variable {b : UInt8} {rest : Bytes} {t : Token}

abbrev Bytes := List UInt8

/-! ### Writing strings -/

/-- An escape of one character after the backslash, as it is written. -/
def shortEscape? (b : UInt8) : Option UInt8 :=
  if b = 0x5C ∨ b = 0x22 then some b
  else if b = 0x08 then some 0x62
  else if b = 0x0C then some 0x66
  else if b = 0x0A then some 0x6E
  else if b = 0x0D then some 0x72
  else if b = 0x09 then some 0x74
  else none

/-- Bytes that are written as a code unit: control characters and what HTML gives a meaning. -/
def isUnsafe (b : UInt8) : Bool := b.toNat < 0x20 || b = 0x26 || b = 0x3C || b = 0x3E

/-- A code unit as an escape. -/
def unitEscape (u : Nat) : Bytes :=
  [0x5C, 0x75, Hex.digit (u / 4096 % 16), Hex.digit (u / 256 % 16), Hex.digit (u / 16 % 16),
    Hex.digit (u % 16)]

/-- One piece of a string, as it is written. -/
def quotePiece : Utf8.Piece → Bytes
  | .bad _ => unitEscape 0xFFFD
  | .char [b] =>
    match shortEscape? b with
    | some e => [0x5C, e]
    | none => if isUnsafe b then unitEscape b.toNat else [b]
  | .char bytes =>
    -- The two line separators are escaped, since scripts take them for line ends.
    if bytes = [0xE2, 0x80, 0xA8] then unitEscape 0x2028
    else if bytes = [0xE2, 0x80, 0xA9] then unitEscape 0x2029
    else bytes

/-- A string between quotes. -/
def quote (s : Bytes) : Bytes := 0x22 :: ((Utf8.split s).flatMap quotePiece ++ [0x22])

/-! ### Reading strings -/

/-- What a short escape stands for. -/
def shortUnescape? (e : UInt8) : Option UInt8 :=
  if e = 0x5C ∨ e = 0x22 ∨ e = 0x2F then some e
  else if e = 0x62 then some 0x08
  else if e = 0x66 then some 0x0C
  else if e = 0x6E then some 0x0A
  else if e = 0x72 then some 0x0D
  else if e = 0x74 then some 0x09
  else none

/-- Four hexadecimal digits. -/
def hex4? : Bytes → Option Nat
  | a :: b :: c :: d :: _ => do
    return (((← Hex.value? a) * 16 + (← Hex.value? b)) * 16 + (← Hex.value? c)) * 16 +
      (← Hex.value? d)
  | _ => none

/-- The second half of a pair of surrogates, escaped. -/
def lowSurrogate? : Bytes → Option Nat
  | 0x5C :: 0x75 :: rest => (hex4? rest).filter fun u => 0xDC00 ≤ u ∧ u ≤ 0xDFFF
  | _ => none

/-- What an escaped code unit stands for and how long the escape is, from what follows `\u`: a pair
of surrogates is one character, and half of one is replaced. -/
def unitUnescape? (rest : Bytes) : Option (Bytes × Nat) := (hex4? rest).map fun u =>
    if 0xD800 ≤ u ∧ u ≤ 0xDBFF then
      match lowSurrogate? (rest.drop 4) with
      | some low => (Utf8.encode (0x10000 + (u - 0xD800) * 1024 + (low - 0xDC00)), 12)
      | none => (Utf8.replacement, 6)
    else (Utf8.encode u, 6)

/-- What an escape stands for and how long it is, from what follows the backslash. -/
def unescape? : Bytes → Option (Bytes × Nat)
  | [] => none
  | e :: rest => if e = 0x75 then unitUnescape? rest else (shortUnescape? e).map fun c => ([c], 2)

/-- The character at the front, or what it is replaced by. -/
def repairUnit (l : Bytes) : Bytes × Nat :=
  match Utf8.width? l with
  | some w => (l.take w, w)
  | none => (Utf8.replacement, 1)

/-- The front of a string's text: what it stands for and how long it is. -/
def stringUnit? : Bytes → Option (Bytes × Nat)
  | [] => none
  | b :: rest =>
    if b = 0x5C then unescape? rest
    else if b.toNat < 0x20 then none
    else some (repairUnit (b :: rest))

/-- A string's text after the opening quote, less `skip` bytes that belong to a unit already read:
what it stands for, and its length with the closing quote. -/
def stringBody : (skip : Nat) → Bytes → Option (Bytes × Nat)
  | _, [] => none
  | skip + 1, _ :: rest => (stringBody skip rest).map fun r => (r.1, r.2 + 1)
  | 0, b :: rest =>
    if b = 0x22 then some ([], 1)
    else
      match stringUnit? (b :: rest) with
      | none => none
      | some (out, w) => (stringBody (w - 1) rest).map fun r => (out ++ r.1, r.2 + 1)

/-! ### Numbers -/

/-- Where a number is, while it is read. -/
inductive NumberState
  | start | neg | zero | digits | dot | fraction | e | eSign | exponent
deriving DecidableEq, Repr

def isDigit (b : UInt8) : Bool := 0x30 ≤ b.toNat && b.toNat ≤ 0x39

/-- One byte of a number. -/
def NumberState.step (s : NumberState) (b : UInt8) : Option NumberState :=
  match s with
  | .start => if b = 0x2D then some .neg else first b
  | .neg => first b
  | .zero => afterInteger b
  | .digits => if isDigit b then some .digits else afterInteger b
  | .dot => if isDigit b then some .fraction else none
  | .fraction => if isDigit b then some .fraction else afterFraction b
  | .e => if b = 0x2B ∨ b = 0x2D then some .eSign else if isDigit b then some .exponent else none
  | .eSign => if isDigit b then some .exponent else none
  | .exponent => if isDigit b then some .exponent else none
where
  first (b : UInt8) : Option NumberState :=
    if b = 0x30 then some .zero else if isDigit b then some .digits else none
  afterInteger (b : UInt8) : Option NumberState :=
    if b = 0x2E then some .dot else afterFraction b
  afterFraction (b : UInt8) : Option NumberState :=
    if b = 0x65 ∨ b = 0x45 then some .e else none

/-- A number may end here. -/
def NumberState.accepts : NumberState → Bool
  | .zero | .digits | .fraction | .exponent => true
  | _ => false

/-- The text of a number. -/
def isNumber (l : Bytes) : Bool := (l.foldlM NumberState.step .start).any NumberState.accepts

/-- The bytes a number is made of. -/
def isNumberByte (b : UInt8) : Bool :=
  isDigit b || b = 0x2B || b = 0x2D || b = 0x2E || b = 0x45 || b = 0x65

/-! ### Integers -/

theorem isDigit_digit {d : Nat} (h : d < 10) : isDigit (Decimal.digit d) = true := by
  have htoNat : (Decimal.digit d).toNat = 48 + d := by
    exact Nat.mod_eq_of_lt (by omega)
  rw [isDigit, Bool.and_eq_true, decide_eq_true_eq, decide_eq_true_eq]
  omega

/-- After a digit, digits are accepted. -/
theorem foldlM_digits {l : Bytes} (h : ∀ b ∈ l, ∃ d < 10, b = Decimal.digit d) :
    l.foldlM NumberState.step .digits = some .digits := by
  induction l with
  | nil => rfl
  | cons b l ih =>
    obtain ⟨d, hd, rfl⟩ := h b mem_cons_self
    have hstep : NumberState.step .digits (Decimal.digit d) = some .digits := by
      simp only [NumberState.step, isDigit_digit hd, if_true]
    rw [foldlM_cons, hstep]
    exact ih (forall_mem_cons.mp h).2

/-- The digits of a number make a number, wherever one may start. -/
theorem foldlM_ofNat {s : NumberState} (hs : ∀ b, Decimal.digitValue? b ≠ none →
    s.step b = NumberState.step.first b) (n : Nat) :
    ∃ s', (Decimal.ofNat n).foldlM NumberState.step s = some s' ∧ s'.accepts = true := by
  rcases Nat.eq_zero_or_pos n with rfl | hpos
  · refine ⟨.zero, ?_, rfl⟩
    rw [Decimal.ofNat_of_lt (by decide), foldlM_cons, hs _ (by decide)]
    rfl
  · obtain ⟨d, rest, hd, hlt, hds⟩ := Decimal.ofNat_eq_cons hpos
    refine ⟨.digits, ?_, rfl⟩
    -- no leading zero
    have hzero : ¬ Decimal.digit d = 0x30 := by
      intro heq
      have hval := Decimal.digitValue?_digit hlt
      rw [heq] at hval
      cases hval
      exact absurd hd (by decide)
    have hfst : s.step (Decimal.digit d) = some .digits := by
      rw [hs _ (by rw [Decimal.digitValue?_digit hlt]; simp), NumberState.step.first, if_neg hzero,
        isDigit_digit hlt]
      rfl
    rw [hds, foldlM_cons, hfst]
    exact foldlM_digits fun b hb =>
      Decimal.isDigit_of_mem_ofNat (n := n) (hds ▸ mem_cons_of_mem _ hb)

/-- An integer in decimal is a number's text. -/
theorem isNumber_ofInt (i : Int) : isNumber (Decimal.ofInt i) = true := by
  have hsign : ∀ b, Decimal.digitValue? b ≠ none →
      NumberState.step .start b = NumberState.step.first b := by
    intro b hb
    have hminus : ¬ b = 0x2D := by
      rintro rfl
      exact hb (by decide)
    simp only [NumberState.step, if_neg hminus]
  cases i with
  | ofNat n =>
    obtain ⟨s, hrun, haccepts⟩ := foldlM_ofNat hsign n
    rw [isNumber, Decimal.ofInt, hrun]
    exact haccepts
  | negSucc n =>
    obtain ⟨s, hrun, haccepts⟩ := foldlM_ofNat (s := .neg) (fun _ _ => rfl) (n + 1)
    show ((Decimal.ofNat (n + 1)).foldlM NumberState.step .neg).any NumberState.accepts = true
    rw [hrun]
    exact haccepts

/-! ### Tokens -/

inductive Token
  | openArray | closeArray | openObject | closeObject | colon | comma | null
  | bool (value : Bool)
  | number (literal : Bytes)
  | string (value : Bytes)
deriving DecidableEq, Repr

def isSpace (b : UInt8) : Bool := b = 0x20 || b = 0x09 || b = 0x0A || b = 0x0D

/-- The tokens of one byte. -/
def punctuation? (b : UInt8) : Option Token :=
  if b = 0x5B then some .openArray
  else if b = 0x5D then some .closeArray
  else if b = 0x7B then some .openObject
  else if b = 0x7D then some .closeObject
  else if b = 0x3A then some .colon
  else if b = 0x2C then some .comma
  else none

def trueText : Bytes := [0x74, 0x72, 0x75, 0x65]
def falseText : Bytes := [0x66, 0x61, 0x6C, 0x73, 0x65]
def nullText : Bytes := [0x6E, 0x75, 0x6C, 0x6C]

/-- The token at the front, and its length. -/
def token? : Bytes → Option (Token × Nat)
  | [] => none
  | b :: rest =>
    match punctuation? b with
    | some t => some (t, 1)
    | none =>
      if b = 0x22 then (stringBody 0 rest).map fun r => (.string r.1, r.2 + 1)
      else if isNumberByte b && isNumber ((b :: rest).takeWhile isNumberByte) then
        some (.number ((b :: rest).takeWhile isNumberByte),
          ((b :: rest).takeWhile isNumberByte).length)
      else if trueText.isPrefixOf (b :: rest) then some (.bool true, 4)
      else if falseText.isPrefixOf (b :: rest) then some (.bool false, 5)
      else if nullText.isPrefixOf (b :: rest) then some (.null, 4)
      else none

/-- The tokens of a text, less `skip` bytes that belong to a token already read. -/
def lexFrom : (skip : Nat) → Bytes → Option (List Token)
  | _, [] => some []
  | skip + 1, _ :: rest => lexFrom skip rest
  | 0, b :: rest =>
    if isSpace b then lexFrom 0 rest
    else
      match token? (b :: rest) with
      | none => none
      | some (t, w) => (lexFrom (w - 1) rest).map (t :: ·)

/-- The tokens of a text. -/
def lex (l : Bytes) : Option (List Token) := lexFrom 0 l

/-! ### What was written is read -/

theorem hex4?_digits {u : Nat} (h : u < 65536) (rest : Bytes) :
    hex4? (Hex.digit (u / 4096 % 16) :: Hex.digit (u / 256 % 16) :: Hex.digit (u / 16 % 16) ::
      Hex.digit (u % 16) :: rest) = some u := by
  have hmod (n : Nat) : n % 16 < 16 := Nat.mod_lt _ (by decide)
  simp only [hex4?, Hex.value?_digit (hmod _), bind_eq_bind, bind_some]
  congr 1
  omega

/-- A code unit that is no surrogate is read back. -/
theorem stringUnit?_unitEscape {u : Nat} (h : u < 65536) (hsur : ¬ (0xD800 ≤ u ∧ u ≤ 0xDBFF))
    (rest : Bytes) : stringUnit? (unitEscape u ++ rest) = some (Utf8.encode u, 6) := by
  simp only [unitEscape, cons_append, stringUnit?, unescape?, unitUnescape?, hex4?_digits h,
    map_some, if_neg hsur, if_pos]

/-- A character that stands for itself. -/
theorem stringUnit?_char {c : Bytes} (hc : Utf8.IsChar c) (rest : Bytes)
    (hfst : ∀ b ∈ c.head?, b ≠ 0x5C ∧ ¬ b.toNat < 0x20) :
    stringUnit? (c ++ rest) = some (c, c.length) := by
  have hwd := hc.width?_append rest
  cases c with
  | nil => cases hc
  | cons b tail =>
    obtain ⟨hslash, hctl⟩ := hfst b rfl
    rw [cons_append] at hwd ⊢
    rw [stringUnit?, if_neg hslash, if_neg hctl, repairUnit, hwd]
    simp only
    rw [← cons_append, take_left]

/-- Every short escape is read back, and none is taken for that of a code unit. -/
theorem shortUnescape?_shortEscape {e : UInt8} (h : shortEscape? b = some e) :
    shortUnescape? e = some b ∧ e ≠ 0x75 := by
  rw [shortEscape?] at h
  split_ifs at h with hself hb hf hn hr ht <;> cases h
  · rcases hself with rfl | rfl <;> decide
  · exact hb ▸ by decide
  · exact hf ▸ by decide
  · exact hn ▸ by decide
  · exact hr ▸ by decide
  · exact ht ▸ by decide

theorem encode_ascii (h : b.toNat < 0x80) : Utf8.encode b.toNat = [b] := by
  rw [encode, if_pos (by omega), UInt8.ofNat_toNat]

/-- A byte that has no short escape and is not written as a code unit is an ordinary one. -/
theorem ordinary_of_safe : ∀ b, shortEscape? b = none → isUnsafe b = false →
    b ≠ 0x5C ∧ b ≠ 0x22 ∧ ¬ b.toNat < 0x20 := by
  decide +kernel

/-- How a piece is written: as a short escape, as a code unit that is no surrogate, or as itself. -/
theorem quotePiece_cases {p : Utf8.Piece} (hpiece : ∀ c, p = .char c → Utf8.IsChar c) :
    (∃ b e, shortEscape? b = some e ∧ p.repair = [b] ∧ quotePiece p = [0x5C, e]) ∨
      (∃ u < 65536, ¬ (0xD800 ≤ u ∧ u ≤ 0xDFFF) ∧ p.repair = Utf8.encode u ∧
        quotePiece p = unitEscape u) ∨
      (Utf8.IsChar p.repair ∧ quotePiece p = p.repair ∧
        ∀ b ∈ p.repair, b ≠ 0x5C ∧ b ≠ 0x22 ∧ ¬ b.toNat < 0x20) := by
  cases p with
  | bad b => exact .inr (.inl ⟨0xFFFD, by decide, by decide, rfl, rfl⟩)
  | char c =>
    have hc := hpiece c rfl
    -- one byte, which may have an escape, or several, of which two characters do
    rcases hc.cases with ⟨b, rfl, hascii⟩ | ⟨hlen, hwide⟩
    · rw [quotePiece]
      cases hsh : shortEscape? b with
      | some e => exact .inl ⟨b, e, hsh, rfl, rfl⟩
      | none =>
        cases hunsafe : isUnsafe b with
        | true =>
          exact .inr (.inl ⟨b.toNat, by omega, by omega, (encode_ascii hascii).symm, rfl⟩)
        | false =>
          refine .inr (.inr ⟨hc, rfl, ?_⟩)
          intro b' hb'
          obtain rfl := mem_singleton.mp hb'
          exact ordinary_of_safe b' hsh hunsafe
    · have hpl : quotePiece (.char c) =
          if c = [0xE2, 0x80, 0xA8] then unitEscape 0x2028
          else if c = [0xE2, 0x80, 0xA9] then unitEscape 0x2029
          else c := by
        rw [quotePiece]
        rintro b rfl
        exact absurd hlen (Nat.lt_irrefl 1)
      rw [hpl]
      by_cases hline : c = [0xE2, 0x80, 0xA8]
      · rw [hline]
        exact .inr (.inl ⟨0x2028, by decide, by decide, rfl, rfl⟩)
      · rw [if_neg hline]
        by_cases hparagraph : c = [0xE2, 0x80, 0xA9]
        · rw [hparagraph]
          exact .inr (.inl ⟨0x2029, by decide, by decide, rfl, rfl⟩)
        · rw [if_neg hparagraph]
          refine .inr (.inr ⟨hc, rfl, ?_⟩)
          intro b hb
          have hbig := hwide b hb
          refine ⟨?_, ?_, by omega⟩
          · rintro rfl
            exact hbig (by decide)
          · rintro rfl
            exact hbig (by decide)

/-- What a piece is written as is read back as the piece repaired. -/
theorem stringUnit?_quotePiece {p : Utf8.Piece}
    (hpiece : ∀ c, p = .char c → Utf8.IsChar c) (rest : Bytes) :
    stringUnit? (quotePiece p ++ rest) = some (p.repair, (quotePiece p).length) ∧
      (quotePiece p).head? ≠ some 0x22 := by
  rcases quotePiece_cases hpiece with ⟨b, e, hsh, hrepair, hquo⟩ |
    ⟨u, hu, hsur, hrepair, hquo⟩ | ⟨hc, hquo, hpl⟩
  · obtain ⟨hback, hunit⟩ := shortUnescape?_shortEscape hsh
    rw [hquo, hrepair]
    simp only [cons_append, stringUnit?, unescape?, if_neg hunit, hback]
    exact ⟨rfl, by simp⟩
  · rw [hquo, hrepair, stringUnit?_unitEscape hu (fun h => hsur ⟨h.1, by omega⟩)]
    exact ⟨rfl, by simp [unitEscape]⟩
  · rw [hquo]
    have hhead : ∀ b ∈ p.repair.head?, b ∈ p.repair := fun b hb => mem_of_mem_head? hb
    refine ⟨stringUnit?_char hc rest fun b hb => ?_, fun h => (hpl 0x22 (hhead _ h)).2.1 rfl⟩
    obtain ⟨hslash, -, hctl⟩ := hpl b (hhead b hb)
    exact ⟨hslash, hctl⟩

theorem stringBody_skip (front rest : Bytes) : stringBody front.length (front ++ rest) =
      (stringBody 0 rest).map fun r => (r.1, r.2 + front.length) := by
  induction front with
  | nil => simp
  | cons b front ih =>
    rw [length_cons, cons_append, stringBody, ih, Option.map_map]
    rfl

/-- One unit at the front of a string's text. -/
theorem stringBody_append {front out : Bytes}
    (h : stringUnit? (front ++ rest) = some (out, front.length)) (hquo : front.head? ≠ some 0x22)
    (hpos : front ≠ []) :
    stringBody 0 (front ++ rest) =
      (stringBody 0 rest).map fun r => (out ++ r.1, r.2 + front.length) := by
  cases front with
  | nil => exact absurd rfl hpos
  | cons b front =>
    have hb : ¬ b = 0x22 := fun heq => hquo (by rw [heq]; rfl)
    rw [cons_append] at h ⊢
    rw [stringBody, if_neg hb, h]
    simp only [length_cons, Nat.add_sub_cancel]
    rw [stringBody_skip, Option.map_map]
    rfl

/-- Pieces are read back repaired, up to the quote. -/
theorem stringBody_pieces (ps : List Utf8.Piece)
    (hps : ∀ c, .char c ∈ ps → Utf8.IsChar c) (rest : Bytes) :
    stringBody 0 (ps.flatMap quotePiece ++ 0x22 :: rest) =
      some (ps.flatMap Utf8.Piece.repair, (ps.flatMap quotePiece).length + 1) := by
  induction ps with
  | nil => simp [stringBody]
  | cons p ps ih =>
    have hchar : ∀ c, p = .char c → IsChar c :=
      fun c hc => hps c (hc ▸ mem_cons_self)
    have hunit (tail : Bytes) := stringUnit?_quotePiece hchar tail
    have hne : quotePiece p ≠ [] := by
      intro hnil
      have hemp := (hunit []).1
      rw [hnil] at hemp
      cases hemp
    rw [flatMap_cons, append_assoc, stringBody_append (hunit _).1 (hunit []).2 hne,
      ih fun c hc => hps c (mem_cons_of_mem _ hc), map_some, length_append]
    congr 2
    omega

/-- A string's text is read back as the string repaired, with whatever follows the quote left. -/
theorem stringBody_quote (s rest : Bytes) :
    stringBody 0 ((Utf8.split s).flatMap quotePiece ++ 0x22 :: rest) =
      some (Utf8.repair s, ((Utf8.split s).flatMap quotePiece).length + 1) :=
  stringBody_pieces _ (fun _ => isChar_of_mem_split) rest

/-! ### Reading tokens -/

/-- The text of a token. -/
def Token.text : Token → Bytes
  | .openArray => [0x5B]
  | .closeArray => [0x5D]
  | .openObject => [0x7B]
  | .closeObject => [0x7D]
  | .colon => [0x3A]
  | .comma => [0x2C]
  | .null => nullText
  | .bool true => trueText
  | .bool false => falseText
  | .number literal => literal
  | .string value => quote value

/-- What is written between quotes is UTF-8. -/
theorem valid_quote (s : Bytes) : Utf8.valid (quote s) = true := by
  have hps (ps : List Piece) (h : ∀ c, .char c ∈ ps → IsChar c) :
      valid (ps.flatMap quotePiece ++ [0x22]) = true := by
    induction ps with
    | nil => decide
    | cons p ps ih =>
      have hpiece : valid (quotePiece p) = true := by
        rcases quotePiece_cases fun c hc => h c (hc ▸ mem_cons_self) with
          ⟨b, e, hsh, -, hquo⟩ | ⟨u, -, -, -, hquo⟩ | ⟨hc, hquo, -⟩
        -- short escapes, escapes by number, and characters that stand for themselves
        · rw [hquo]
          apply valid_of_ascii
          simp only [forall_mem_cons, not_mem_nil, false_implies, implies_true, and_true]
          refine ⟨by decide, ?_⟩
          unfold shortEscape? at hsh
          split_ifs at hsh with hself <;> cases hsh
          · rcases hself with rfl | rfl <;> decide
          all_goals decide
        · have hdig (n : Nat) : (Hex.digit (n % 16)).toNat < 0x80 := by
            have hall : ∀ n : Fin 16, (Hex.digit n.val).toNat < 0x80 := by decide
            exact hall ⟨n % 16, Nat.mod_lt _ (by decide)⟩
          rw [hquo, unitEscape]
          apply valid_of_ascii
          simp only [forall_mem_cons, hdig, not_mem_nil, false_implies, implies_true, and_true]
          decide
        · have hvalid := valid_append hc []
          rw [append_nil] at hvalid
          rw [hquo, hvalid]
          rfl
      rw [flatMap_cons, append_assoc, valid_append_of_valid hpiece]
      exact ih fun c hc => h c (mem_cons_of_mem _ hc)
  exact hps _ fun _ => isChar_of_mem_split

/-- What a token is read back as. -/
def Token.repair : Token → Token
  | .string value => .string (Utf8.repair value)
  | t => t

/-- A token that can be written: a number's text is one. -/
def Token.Good : Token → Prop
  | .number literal => isNumber literal = true
  | _ => True

/-- No number goes on after the front of this text. -/
def Delimited (rest : Bytes) : Prop := ∀ b ∈ rest.head?, isNumberByte b = false

/-- The token ends where this text starts. -/
def Token.EndsBefore (rest : Bytes) : Token → Prop
  | .number _ => Delimited rest
  | _ => True

/-- A number ends where something else begins. -/
theorem takeWhile_append_of_delimited {literal : Bytes}
    (hall : ∀ b ∈ literal, isNumberByte b = true) (hrest : Delimited rest) :
    (literal ++ rest).takeWhile isNumberByte = literal := by
  induction literal with
  | nil =>
    cases rest with
    | nil => rfl
    | cons b rest => rw [nil_append, takeWhile_cons, hrest b rfl]; rfl
  | cons b literal ih =>
    rw [cons_append, takeWhile_cons, hall b mem_cons_self]
    simp only [if_true]
    rw [ih (forall_mem_cons.mp hall).2]

/-- A step of a number takes one of a number's bytes. -/
theorem isNumberByte_of_step {s s' : NumberState} (h : s.step b = some s') :
    isNumberByte b = true := by
  have hall : ∀ b, (s.step b).isSome → isNumberByte b = true := by
    cases s <;> decide +kernel
  exact hall b (isSome_of_mem h)

/-- A number is made of the bytes of numbers. -/
theorem isNumberByte_of_mem {lit : Bytes} (h : isNumber lit = true) :
    lit ≠ [] ∧ ∀ b ∈ lit, isNumberByte b = true := by
  constructor
  · rintro rfl
    cases h
  · suffices hrun : ∀ (s s' : NumberState) (l : Bytes), l.foldlM NumberState.step s = some s' →
        ∀ b ∈ l, isNumberByte b = true by
      rw [isNumber] at h
      cases hfold : lit.foldlM NumberState.step .start with
      | none =>
        rw [hfold] at h
        cases h
      | some s => exact hrun _ _ _ hfold
    intro s s' l
    induction l generalizing s with
    | nil => intro _ b hb; cases hb
    | cons a l ih =>
      intro hfold b hb
      obtain ⟨next, hstep, hrest⟩ := bind_eq_some_iff.mp hfold
      rcases mem_cons.mp hb with rfl | hb
      · exact isNumberByte_of_step hstep
      · exact ih next hrest b hb

theorem punctuation?_of_isNumberByte : ∀ b, isNumberByte b = true →
    punctuation? b = none ∧ b ≠ 0x22 ∧ b.toNat < 0x80 ∧ isSpace b = false := by
  decide +kernel

/-- Only a string's text has a quote in it, and all of it is UTF-8. -/
theorem Token.text_cases (h : t.Good) :
    (∃ v, t = .string v) ∨ ∀ b ∈ t.text, b ≠ 0x22 ∧ b.toNat < 0x80 := by
  have hall {l : List UInt8} (hl : l.all (fun b => decide (b ≠ 0x22 ∧ b.toNat < 0x80)) = true) :
      ∀ b ∈ l, b ≠ 0x22 ∧ b.toNat < 0x80 :=
    fun b hb => of_decide_eq_true (all_eq_true.mp hl b hb)
  cases t with
  | string v => exact .inl ⟨v, rfl⟩
  | number lit =>
    refine .inr fun b hb => ?_
    obtain ⟨-, hquo, hascii, -⟩ := punctuation?_of_isNumberByte b ((isNumberByte_of_mem h).2 b hb)
    exact ⟨hquo, hascii⟩
  | bool v => cases v <;> exact .inr (hall rfl)
  | _ => exact .inr (hall rfl)

/-- A token's text is read as that token. -/
theorem token?_text (ht : t.Good) (hrest : t.EndsBefore rest) :
    token? (t.text ++ rest) = some (t.repair, t.text.length) := by
  cases t with
  | number lit =>
    obtain ⟨hne, hall⟩ := isNumberByte_of_mem ht
    have htake := takeWhile_append_of_delimited hall hrest
    cases lit with
    | nil => exact absurd rfl hne
    | cons b tail =>
      obtain ⟨hpunct, hquo, -⟩ := punctuation?_of_isNumberByte b (hall b mem_cons_self)
      rw [cons_append] at htake
      have hnum : (isNumberByte b && isNumber (b :: tail)) = true := by
        rw [hall b mem_cons_self, show isNumber (b :: tail) = true from ht]
        rfl
      rw [Token.text, cons_append, token?, hpunct]
      simp only [if_neg hquo, htake, hnum]
      rfl
  | string v =>
    have hpunct : punctuation? 0x22 = none := by decide
    rw [Token.text, quote, cons_append, append_assoc, token?, hpunct]
    simp only [cons_append, stringBody_quote, if_true, map_some, Token.repair,
      length_cons, length_append, length_nil]
  | bool v => cases v <;> rfl
  | null => rfl
  | openArray => rfl
  | closeArray => rfl
  | openObject => rfl
  | closeObject => rfl
  | colon => rfl
  | comma => rfl

theorem Token.valid_text (h : t.Good) : Utf8.valid t.text = true := by
  rcases text_cases h with ⟨v, rfl⟩ | hascii
  · exact valid_quote v
  · exact valid_of_ascii fun b hb => (hascii b hb).2

theorem lexFrom_skip (front rest : Bytes) : lexFrom front.length (front ++ rest) = lex rest := by
  induction front with
  | nil => rfl
  | cons b front ih => rw [length_cons, cons_append, lexFrom, ih]

/-- White space is passed over. -/
theorem lex_space {ws : Bytes} (hws : ∀ b ∈ ws, isSpace b = true) (rest : Bytes) :
    lex (ws ++ rest) = lex rest := by
  induction ws with
  | nil => rfl
  | cons b ws ih =>
    rw [cons_append, lex, lexFrom, if_pos (hws b mem_cons_self)]
    exact ih (forall_mem_cons.mp hws).2

/-- A token does not begin with white space. -/
theorem text_head (ht : t.Good) : ∃ b tail, t.text = b :: tail ∧ isSpace b = false := by
  cases t with
  | number lit =>
    obtain ⟨hne, hall⟩ := isNumberByte_of_mem ht
    cases lit with
    | nil => exact absurd rfl hne
    | cons b tail =>
      exact ⟨b, tail, rfl, (punctuation?_of_isNumberByte b (hall b mem_cons_self)).2.2.2⟩
  | bool v => cases v <;> exact ⟨_, _, rfl, by decide⟩
  | _ => exact ⟨_, _, rfl, by decide⟩

/-- A token at the front of a text. -/
theorem lex_token (t : Token) (ht : t.Good) (hrest : t.EndsBefore rest) :
    lex (t.text ++ rest) = (lex rest).map (t.repair :: ·) := by
  have htoken := token?_text ht hrest
  obtain ⟨b, tail, htext, hspace⟩ := text_head ht
  rw [htext, cons_append] at htoken ⊢
  rw [lex, lexFrom, hspace, htoken]
  simp only [Bool.false_eq_true, if_false, length_cons, Nat.add_sub_cancel]
  rw [lexFrom_skip]

theorem delimited_nil : Delimited [] := fun _ hb => nomatch hb

theorem delimited_cons (h : isNumberByte b = false) (rest : Bytes) : Delimited (b :: rest) := by
  intro b' hb'
  cases hb'
  exact h

/-- White space, or what follows where there is none, ends a number. -/
theorem delimited_append {ws : Bytes} (hws : ∀ b ∈ ws, isSpace b = true)
    (hrest : Delimited rest) : Delimited (ws ++ rest) := by
  cases ws with
  | nil => exact hrest
  | cons b ws =>
    have hspace := hws b mem_cons_self
    apply delimited_cons
    rw [Bool.eq_false_iff]
    intro hnum
    rw [(punctuation?_of_isNumberByte b hnum).2.2.2] at hspace
    cases hspace

end Json
