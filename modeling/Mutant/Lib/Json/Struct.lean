import Mathlib.Algebra.Ring.Nat
import Mutant.Lib.Json.Decode

/-!
# Documents of structures

How a structure is written as a document, field by field, and how a document is decoded over the
structure that is there.  A member goes to the field of its name, or else to the one whose name
differs in case only; a name that no field has is refused, and `null` leaves a value as it is.

* `decodeStruct_writeStruct`: what a structure is written as decodes field by field, each field from
  what it was written as.
* `decode_render_of_writable`: a document of numbers, of strings in UTF-8 and of containers of such is
  decoded from its text as it was.
* `length_render_struct_le`, `length_render_array_le`: how much room a document takes.
-/

namespace Json

open List

variable {α β σ : Type} {members : List (List UInt8 × Json)} {n : Nat}

/-! ### Values -/

/-- How the values of a type are written, and how a document is decoded over the value that is
there. -/
structure Coding (α : Type) where
  write : α → Json
  decode : Json → α → Option α

namespace Coding

def string : Coding (List UInt8) where
  write := .string
  decode
    | .string value, _ => some value
    | .null, there => some there
    | _, _ => none

def bool : Coding Bool where
  write := .bool
  decode
    | .bool value, _ => some value
    | .null, there => some there
    | _, _ => none

/-- A number without a sign: digits only, and within the bound of its type. -/
def uint (bound : Nat) (toNat : α → Nat) (ofNat : Nat → α) : Coding α where
  write value := .number (Decimal.ofNat (toNat value))
  decode
    | .number literal, _ =>
      ((Decimal.toNat? literal).filter (· < bound)).map ofNat
    | .null, there => some there
    | _, _ => none

def uint8 : Coding UInt8 := uint (2 ^ 8) UInt8.toNat UInt8.ofNat

def uint32 : Coding UInt32 := uint (2 ^ 32) UInt32.toNat UInt32.ofNat

def uint64 : Coding UInt64 := uint (2 ^ 64) UInt64.toNat UInt64.ofNat

end Coding

/-- A slice, and what its array still holds past its end. -/
structure Slice (α : Type) where
  items : Option (List α)
  past : List α

/-- The items of an array, each over the one that is there. -/
def decodeItems (item : Coding α) (zero : α) : List Json → (there : List α) → Option (List α)
  | [], _ => some []
  | v :: vs, there => do
    let a ← item.decode v (there.headD zero)
    let as ← decodeItems item zero vs there.tail
    return a :: as

/-- A slice is decoded into its array, as far as that goes; an empty one gets a new array. -/
def Coding.slice (item : Coding α) (zero : α) : Coding (Slice α) where
  write
    | ⟨none, _⟩ => .null
    | ⟨some items, _⟩ => .array (items.map item.write)
  decode
    | .null, _ => some ⟨none, []⟩
    | .array [], _ => some ⟨some [], []⟩
    | .array vs, slice =>
      let there := slice.items.getD [] ++ slice.past
      (decodeItems item zero vs there).map fun items => ⟨some items, there.drop vs.length⟩
    | _, _ => none

/-! ### Structures -/

/-- A field of a structure. -/
structure Field (σ : Type) where
  name : List UInt8
  write : σ → Json
  decode : Json → σ → Option σ

/-- The field of a name and of a type of value. -/
def field (name : List UInt8) (coding : Coding α) (get : σ → α) (put : σ → α → σ) : Field σ where
  name
  write s := coding.write (get s)
  decode v s := (coding.decode v (get s)).map (put s)

/-- A name without the differences of case: small letters as capital ones, and with them the long s
and the sign for kelvin, the only letters beyond ASCII that fold to one in it. -/
def foldName : List UInt8 → List UInt8
  | 0xC5 :: 0xBF :: rest => 0x53 :: foldName rest
  | 0xE2 :: 0x84 :: 0xAA :: rest => 0x4B :: foldName rest
  | b :: rest => (if 0x61 ≤ b ∧ b ≤ 0x7A then b - 0x20 else b) :: foldName rest
  | [] => []

/-- The field a member goes to. -/
def field? (fields : List (Field σ)) (name : List UInt8) : Option (Field σ) :=
  (fields.find? (·.name == name)).or (fields.find? fun f => foldName f.name == foldName name)

def writeStruct (fields : List (Field σ)) (s : σ) : Json :=
  .object (fields.map fun f => (f.name, f.write s))

/-- One member after another. -/
def decodeMembers (fields : List (Field σ)) (members : List (List UInt8 × Json)) (s : σ) : Option σ :=
  members.foldlM (fun s m => (field? fields m.1).bind (·.decode m.2 s)) s

def decodeStruct (fields : List (Field σ)) : Json → σ → Option σ
  | .object members, s => decodeMembers fields members s
  | .null, s => some s
  | _, _ => none

/-- A structure as a value. -/
def Coding.struct (fields : List (Field σ)) : Coding σ := ⟨writeStruct fields, decodeStruct fields⟩

/-! ### What was written decodes -/

/-- A value is decoded from what it is written as, whatever is there. -/
def Coding.Reads (coding : Coding α) (a : α) : Prop :=
  ∀ there, coding.decode (coding.write a) there = some a

theorem Coding.reads_string (value : List UInt8) : string.Reads value := fun _ => rfl

theorem Coding.reads_uint {bound : Nat} {toNat : α → Nat} {ofNat : Nat → α} {a : α}
    (hlt : toNat a < bound) (hinv : ofNat (toNat a) = a) : (uint bound toNat ofNat).Reads a := by
  intro there
  show ((Decimal.toNat? (Decimal.ofNat (toNat a))).filter _).map ofNat = _
  rw [Decimal.toNat?_ofNat, Option.filter_some, if_pos (by simpa using hlt), Option.map_some, hinv]

theorem Coding.reads_uint8 (value : UInt8) : uint8.Reads value :=
  reads_uint value.toNat_lt UInt8.ofNat_toNat

theorem Coding.reads_uint32 (value : UInt32) : uint32.Reads value :=
  reads_uint value.toNat_lt UInt32.ofNat_toNat

theorem Coding.reads_uint64 (value : UInt64) : uint64.Reads value :=
  reads_uint value.toNat_lt UInt64.ofNat_toNat

theorem decodeItems_write {item : Coding α} (zero : α) {as : List α} (h : ∀ a ∈ as, item.Reads a)
    (there : List α) : decodeItems item zero (as.map item.write) there = some as := by
  induction as generalizing there with
  | nil => rfl
  | cons a as ih =>
    obtain ⟨ha, has⟩ := forall_mem_cons.mp h
    rw [map_cons, decodeItems, ha, ih has]
    rfl

/-- A slice whose items decode is decoded where there was none. -/
theorem Coding.decode_slice {item : Coding α} (zero : α) {items : Option (List α)}
    (h : ∀ as ∈ items, ∀ a ∈ as, item.Reads a) (past : List α) :
    (slice item zero).decode ((slice item zero).write ⟨items, past⟩) ⟨none, []⟩ =
      some ⟨items, []⟩ := by
  cases items with
  | none => rfl
  | some as =>
    cases as with
    | nil => rfl
    | cons a as =>
      have hitems := decodeItems_write zero (h _ rfl) []
      rw [map_cons] at hitems
      show (decodeItems item zero (item.write a :: as.map item.write) []).map _ = _
      rw [hitems]
      rfl

/-- A field whose value decodes is put where it was. -/
theorem decode_field {coding : Coding α} {get : σ → α} {put : σ → α → σ} {s : σ}
    (h : coding.Reads (get s)) (name : List UInt8) (there : σ) :
    (field name coding get put).decode ((field name coding get put).write s) there =
      some (put there (get s)) := by
  show (coding.decode (coding.write (get s)) (get there)).map (put there) = _
  rw [h]
  rfl

/-- A field goes by its own name, when the names are distinct. -/
theorem field?_name {fields : List (Field σ)} (hnames : (fields.map (·.name)).Nodup) {f : Field σ}
    (hf : f ∈ fields) : field? fields f.name = some f := by
  have hfind : fields.find? (·.name == f.name) = some f := by
    induction fields with
    | nil => cases hf
    | cons g fields ih =>
      obtain ⟨hg, hrest⟩ := nodup_cons.mp hnames
      rcases mem_cons.mp hf with rfl | hf
      · exact find?_cons_of_pos (beq_self_eq_true _)
      · have hne : g.name ≠ f.name := fun heq => hg (mem_map.mpr ⟨f, hf, heq.symm⟩)
        rw [find?_cons_of_neg (by simpa using hne), ih hrest hf]
  rw [field?, hfind]
  rfl

/-- What a structure is written as decodes field by field. -/
theorem decodeStruct_writeStruct {fields : List (Field σ)} (hnames : (fields.map (·.name)).Nodup)
    (s there : σ) : decodeStruct fields (writeStruct fields s) there =
      fields.foldlM (fun t f => f.decode (f.write s) t) there := by
  -- the fields that are left, among all the fields the names are looked up in
  have hpart : ∀ part ⊆ fields, ∀ t,
      decodeMembers fields (part.map fun f => (f.name, f.write s)) t =
        part.foldlM (fun t f => f.decode (f.write s) t) t := by
    intro part hsub
    induction part with
    | nil => exact fun _ => rfl
    | cons f part ih =>
      intro t
      have hf := field?_name hnames (hsub mem_cons_self)
      have hrest := ih (fun g hg => hsub (mem_cons_of_mem f hg))
      rw [map_cons, decodeMembers, foldlM_cons, foldlM_cons, hf, Option.bind_some]
      exact congrArg _ (funext hrest)
  exact hpart fields (fun _ hf => hf) there

/-! ### Documents that are kept -/

/-- The document has numbers, strings in UTF-8 and containers of such, to a depth. -/
structure Writable (n : Nat) (v : Json) : Prop where
  good : v.Good
  utf8 : v.IsUtf8
  depth_le : v.depth ≤ n

theorem writable_null : Writable n .null := ⟨good_null, trivial, Nat.zero_le n⟩

theorem writable_string {value : List UInt8} (h : Utf8.valid value = true) :
    Writable n (.string value) := ⟨good_string value, h, Nat.zero_le n⟩

theorem writable_number (k : Nat) : Writable n (.number (Decimal.ofNat k)) := by
  have hgood : Token.Good (.number (Decimal.ofNat k)) := isNumber_ofInt k
  exact ⟨forall_mem_singleton.mpr hgood, Token.valid_text (t := .number (Decimal.ofNat k)) hgood,
    Nat.zero_le n⟩

theorem writable_array {items : List Json} (h : ∀ item ∈ items, Writable n item) :
    Writable (n + 1) (.array items) where
  good := good_array_iff.mpr fun item hitem => (h item hitem).good
  utf8 := (isUtf8_array items).mpr fun item hitem => (h item hitem).utf8
  depth_le := Nat.succ_le_succ (itemsDepth_le fun item hitem => (h item hitem).depth_le)

theorem writable_object (h : ∀ m ∈ members, Utf8.valid m.1 = true ∧ Writable n m.2) :
    Writable (n + 1) (.object members) where
  good := good_object_iff.mpr fun m hm => (h m hm).2.good
  utf8 := (isUtf8_object members).mpr fun m hm => ⟨(h m hm).1, (h m hm).2.utf8⟩
  depth_le := Nat.succ_le_succ (membersDepth_le fun m hm => (h m hm).2.depth_le)

theorem writable_struct {fields : List (Field σ)} {s : σ}
    (hnames : ∀ f ∈ fields, Utf8.valid f.name = true) (h : ∀ f ∈ fields, Writable n (f.write s)) :
    Writable (n + 1) (writeStruct fields s) :=
  writable_object (forall_mem_map.mpr fun f hf => ⟨hnames f hf, h f hf⟩)

/-- A document in UTF-8 needs no repair. -/
theorem repair_of_isUtf8 {v : Json} (h : v.IsUtf8) : v.repair = v := by
  induction v using tree_induction with
  | null => rfl
  | bool => rfl
  | number => rfl
  | string value => exact congrArg Json.string (Utf8.repair_of_valid h)
  | array items ih =>
    rw [isUtf8_array] at h
    rw [repair, repairItems_eq_map]
    exact congrArg Json.array ((map_congr_left fun v hv => ih v hv (h v hv)).trans (map_id items))
  | object members ih =>
    rw [isUtf8_object] at h
    have hsame : ∀ m ∈ members, (Utf8.repair m.1, m.2.repair) = m := by
      intro m hm
      rw [Utf8.repair_of_valid (h m hm).1, ih m hm (h m hm).2]
    rw [repair, repairMembers_eq]
    exact congrArg Json.object ((map_congr_left hsame).trans (map_id members))

/-- Such a document is decoded from its text as it was. -/
theorem decode_render_of_writable (L : Layout) (d : Nat) {v : Json} (hv : Writable n v)
    (hn : n ≤ maxNestingDepth) {ws : List UInt8} (hws : ∀ b ∈ ws, isSpace b = true) :
    decode (v.render L d ++ ws) = some v := by
  rw [decode_render L d hv.good (Nat.le_trans hv.depth_le hn) hws, repair_of_isUtf8 hv.utf8]

/-! ### How much room a document takes -/

/-- Letters, digits, dashes and underscores, which stand between quotes as they are. -/
def IsPlain (b : UInt8) : Bool :=
  (0x61 ≤ b && b ≤ 0x7A) || (0x30 ≤ b && b ≤ 0x39) || b == 0x2D || b == 0x5F

theorem isPlain_ascii : ∀ b : UInt8, IsPlain b = true →
    b.toNat < 0x80 ∧ quotePiece (.char [b]) = [b] := by decide +kernel

theorem valid_of_plain {s : List UInt8} (h : s.all IsPlain = true) : Utf8.valid s = true :=
  Utf8.valid_of_ascii fun b hb => (isPlain_ascii b (all_eq_true.mp h b hb)).1

/-- Plain text takes two bytes more between quotes. -/
theorem length_quote_of_plain {s : List UInt8} (h : s.all IsPlain = true) :
    (quote s).length = s.length + 2 := by
  have hbody : ((Utf8.split s).flatMap quotePiece).length = s.length := by
    induction s with
    | nil => rfl
    | cons b s ih =>
      rw [all_cons, Bool.and_eq_true] at h
      obtain ⟨hascii, hpiece⟩ := isPlain_ascii b h.1
      have hsplit := Utf8.split_append (Utf8.isChar_ascii hascii) s
      rw [singleton_append] at hsplit
      rw [hsplit, flatMap_cons, hpiece, singleton_append, length_cons, length_cons, ih h.2]
  rw [quote, length_cons, length_append, hbody, length_singleton]

theorem length_text_string (value : List UInt8) :
    (Token.text (.string value)).length = (quote value).length := rfl

theorem length_newline_indented (d : Nat) : (indented.newline d).length = 2 * d + 1 := by
  rw [indented, length_cons, length_replicate]

/-- What the members after the first take, each with a comma, a line and a colon. -/
theorem length_renderMembers (d : Nat) (members : List (List UInt8 × Json)) :
    (renderMembers indented d members).length =
      (members.map fun m => 2 * d + 4 + (quote m.1).length + (m.2.render indented d).length).sum := by
  induction members with
  | nil => rfl
  | cons m members ih =>
    have hcolon : (Token.text .comma).length = 1 ∧ (Token.text .colon).length = 1 ∧
      indented.afterColon.length = 1 := ⟨rfl, rfl, rfl⟩
    rw [renderMembers, map_cons, sum_cons, ← ih]
    simp only [length_append, length_text_string, length_newline_indented, hcolon]
    omega

/-- How much room the items of an array take. -/
theorem length_renderItems (d : Nat) (items : List Json) :
    (renderItems indented d items).length =
      (items.map fun item => 2 * d + 2 + (item.render indented d).length).sum := by
  induction items with
  | nil => rfl
  | cons item items ih =>
    have hcomma : (Token.text .comma).length = 1 := rfl
    rw [renderItems, map_cons, sum_cons, ← ih]
    simp only [length_append, length_newline_indented, hcomma]
    omega

/-- An object takes what its members take, a line each, and the line that closes it. -/
theorem length_render_object_le (d : Nat) (members : List (List UInt8 × Json)) :
    (render indented d (.object members)).length ≤ 2 * d + 3 +
      (members.map fun m => 2 * d + 6 + (quote m.1).length +
        (m.2.render indented (d + 1)).length).sum := by
  have hbrace : (Token.text .openObject).length = 1 ∧ (Token.text .closeObject).length = 1 ∧
    (Token.text .colon).length = 1 ∧ indented.afterColon.length = 1 := ⟨rfl, rfl, rfl, rfl⟩
  cases members with
  | nil =>
    rw [render, length_append]
    omega
  | cons m members =>
    rw [render, map_cons, sum_cons]
    simp only [length_append, length_text_string, length_newline_indented, length_renderMembers,
      hbrace, show 2 * (d + 1) + 4 = 2 * d + 6 by omega]
    omega

/-- A structure takes what its names and its values take, and a line each. -/
theorem length_render_struct_le (d : Nat) (fields : List (Field σ)) (s : σ) :
    (render indented d (writeStruct fields s)).length ≤ 2 * d + 3 + (2 * d + 6) * fields.length +
      (fields.map fun f => (quote f.name).length).sum +
        (fields.map fun f => ((f.write s).render indented (d + 1)).length).sum := by
  have hobject := length_render_object_le d (fields.map fun f => (f.name, f.write s))
  have hsum : ((fields.map fun f => (f.name, f.write s)).map fun m => 2 * d + 6 +
      (quote m.1).length + (m.2.render indented (d + 1)).length).sum =
      (2 * d + 6) * fields.length + (fields.map fun f => (quote f.name).length).sum +
        (fields.map fun f => ((f.write s).render indented (d + 1)).length).sum := by
    clear hobject
    induction fields with
    | nil => rfl
    | cons f fields ih =>
      simp only [map_cons, sum_cons, length_cons, Nat.mul_add, ih]
      omega
  rw [hsum] at hobject
  rw [writeStruct]
  omega

/-- An array takes what its items take, a line each, and the line that closes it. -/
theorem length_render_array_le (d : Nat) (items : List Json) :
    (render indented d (.array items)).length ≤ 2 * d + 3 +
      (items.map fun item => 2 * d + 4 + (item.render indented (d + 1)).length).sum := by
  have hbracket : (Token.text .openArray).length = 1 ∧ (Token.text .closeArray).length = 1 :=
    ⟨rfl, rfl⟩
  cases items with
  | nil =>
    rw [render, length_append]
    omega
  | cons item items =>
    rw [render, map_cons, sum_cons]
    simp only [length_append, length_newline_indented, length_renderItems, hbracket,
      show 2 * (d + 1) + 2 = 2 * d + 4 by omega]
    omega

end Json
