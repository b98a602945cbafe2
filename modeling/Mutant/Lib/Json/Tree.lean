import Mutant.Lib.Json.Text

/-!
# JSON documents

A document as the tree of what it writes: members stay in their order, and a name written twice is
there twice.  The parser reads a token at a time and keeps what is open on a stack.  A tree that is
written, with whatever white space between its tokens, is read back with its strings repaired
(`read_render`).
-/

/-- A JSON document. -/
inductive Json
  | null
  | bool (value : Bool)
  | number (literal : List UInt8)
  | string (value : List UInt8)
  | array (items : List Json)
  | object (members : List (List UInt8 × Json))

namespace Json

open List

variable {members : List (List UInt8 × Json)} {Q : List UInt8 → Prop}

/-- Induction over documents: an array after its items, an object after its values. -/
theorem tree_induction {motive : Json → Prop} (null : motive .null)
    (bool : ∀ value, motive (.bool value)) (number : ∀ literal, motive (.number literal))
    (string : ∀ value, motive (.string value))
    (array : ∀ items, (∀ item ∈ items, motive item) → motive (.array items))
    (object : ∀ members, (∀ member ∈ members, motive member.2) → motive (.object members)) (v : Json) :
    motive v :=
  @Json.rec motive (fun items => ∀ item ∈ items, motive item)
    (fun members => ∀ member ∈ members, motive member.2) (fun member => motive member.2)
    null bool number string array object
    nofun (fun _ _ hitem hitems => forall_mem_cons.mpr ⟨hitem, hitems⟩)
    nofun (fun _ _ hmember hmembers => forall_mem_cons.mpr ⟨hmember, hmembers⟩)
    (fun _ _ hvalue => hvalue) v

/-! ### Tokens of a document -/

mutual

/-- The tokens a document is written with. -/
def tokens : Json → List Token
  | .null => [.null]
  | .bool value => [.bool value]
  | .number literal => [.number literal]
  | .string value => [.string value]
  | .array [] => [.openArray, .closeArray]
  | .array (item :: items) => .openArray :: (item.tokens ++ (itemsTokens items ++ [.closeArray]))
  | .object [] => [.openObject, .closeObject]
  | .object ((name, value) :: members) =>
    .openObject :: .string name :: .colon ::
      (value.tokens ++ (membersTokens members ++ [.closeObject]))

/-- The tokens of the items after the first. -/
def itemsTokens : List Json → List Token
  | [] => []
  | item :: items => .comma :: (item.tokens ++ itemsTokens items)

/-- The tokens of the members after the first. -/
def membersTokens : List (List UInt8 × Json) → List Token
  | [] => []
  | (name, value) :: members =>
    .comma :: .string name :: .colon :: (value.tokens ++ membersTokens members)

end

/-! ### The parser -/

/-- A container that is open, and waits for a value. -/
inductive Frame
  | array (items : List Json)
  | object (members : List (List UInt8 × Json)) (name : List UInt8)

/-- Where the parser is, over the containers open around it. -/
inductive Parser
  /-- A value is due. -/
  | value (stack : List Frame)
  /-- An array has just been opened. -/
  | arrayFirst (stack : List Frame)
  /-- An item is complete. -/
  | arrayNext (stack : List Frame) (items : List Json) (last : Json)
  /-- An object has just been opened. -/
  | objectFirst (stack : List Frame)
  /-- A name is due. -/
  | objectName (stack : List Frame) (members : List (List UInt8 × Json)) (last : List UInt8 × Json)
  /-- A colon is due. -/
  | objectColon (stack : List Frame) (members : List (List UInt8 × Json)) (name : List UInt8)
  /-- A member is complete. -/
  | objectNext (stack : List Frame) (members : List (List UInt8 × Json)) (last : List UInt8 × Json)
  | done (value : Json)

/-- A value is complete. -/
def deliver : List Frame → Json → Parser
  | [], value => .done value
  | .array items :: stack, value => .arrayNext stack items value
  | .object members name :: stack, value => .objectNext stack members (name, value)

/-- The first token of a value. -/
def begin (stack : List Frame) : Token → Option Parser
  | .null => some (deliver stack .null)
  | .bool value => some (deliver stack (.bool value))
  | .number literal => some (deliver stack (.number literal))
  | .string value => some (deliver stack (.string value))
  | .openArray => some (.arrayFirst stack)
  | .openObject => some (.objectFirst stack)
  | _ => none

/-- One token. -/
def Parser.step : Parser → Token → Option Parser
  | .value stack, t => begin stack t
  | .arrayFirst stack, .closeArray => some (deliver stack (.array []))
  | .arrayFirst stack, t => begin (.array [] :: stack) t
  | .arrayNext stack items last, .comma => some (.value (.array (items ++ [last]) :: stack))
  | .arrayNext stack items last, .closeArray => some (deliver stack (.array (items ++ [last])))
  | .objectFirst stack, .string name => some (.objectColon stack [] name)
  | .objectFirst stack, .closeObject => some (deliver stack (.object []))
  | .objectName stack members last, .string name =>
    some (.objectColon stack (members ++ [last]) name)
  | .objectColon stack members name, .colon => some (.value (.object members name :: stack))
  | .objectNext stack members last, .comma => some (.objectName stack members last)
  | .objectNext stack members last, .closeObject =>
    some (deliver stack (.object (members ++ [last])))
  | _, _ => none

/-- The document the tokens write. -/
def parse (ts : List Token) : Option Json :=
  match ts.foldlM Parser.step (.value []) with
  | some (.done value) => some value
  | _ => none

/-- The document a text writes, and nothing but it. -/
def read (text : List UInt8) : Option Json := (lex text).bind parse

/-! ### The tokens of a document are parsed -/

/-- The parser over some tokens. -/
def run (p : Parser) (ts : List Token) : Option Parser := ts.foldlM Parser.step p

@[simp] theorem run_cons (p : Parser) (t : Token) (ts : List Token) :
    run p (t :: ts) = (p.step t).bind (run · ts) := rfl

theorem run_append (p : Parser) (ts us : List Token) :
    run p (ts ++ us) = (run p ts).bind (run · us) := foldlM_append

/-- A document does not start as an array ends. -/
theorem tokens_head (v : Json) : ∃ t ts, v.tokens = t :: ts ∧ t ≠ .closeArray := by
  cases v with
  | array items => cases items <;> exact ⟨_, _, by rw [tokens], by simp⟩
  | object members =>
    cases members with
    | nil => exact ⟨_, _, by rw [tokens], by simp⟩
    | cons member members => exact ⟨_, _, by rw [tokens], by simp⟩
  | _ => exact ⟨_, _, by rw [tokens], by simp⟩

/-- After its bracket, an array's first item is read as any other. -/
theorem run_arrayFirst (stk : List Frame) (v : Json) (us : List Token) :
    run (.arrayFirst stk) (v.tokens ++ us) =
      run (.value (.array [] :: stk)) (v.tokens ++ us) := by
  obtain ⟨t, ts, htokens, hcl⟩ := tokens_head v
  rw [htokens, cons_append, run_cons]
  congr 1
  cases t with
  | closeArray => exact absurd rfl hcl
  | _ => rfl

mutual

/-- A value that is due is delivered. -/
theorem run_tokens (stk : List Frame) : ∀ v : Json,
    run (.value stk) v.tokens = some (deliver stk v)
  | .null => rfl
  | .bool _ => rfl
  | .number _ => rfl
  | .string _ => rfl
  | .array [] => rfl
  | .array (item :: items) => by
    show run (.arrayFirst stk) _ = _
    rw [run_arrayFirst, run_append, run_tokens _ item, Option.bind_some]
    exact run_itemsTokens stk [] item items
  | .object [] => rfl
  | .object ((name, value) :: members) => by
    show run (.value (.object [] name :: stk)) _ = _
    rw [run_append, run_tokens _ value, Option.bind_some]
    exact run_membersTokens stk [] (name, value) members

/-- Reading the rest of an array. -/
theorem run_itemsTokens (stack : List Frame) (done : List Json) (last : Json) : ∀ items : List Json,
    run (.arrayNext stack done last) (itemsTokens items ++ [.closeArray]) =
      some (deliver stack (.array (done ++ last :: items)))
  | [] => by
    rfl
  | item :: items => by
    rw [itemsTokens, List.cons_append, run_cons]
    show run (.value (.array (done ++ [last]) :: stack)) _ = _
    rw [List.append_assoc, run_append, run_tokens _ item, Option.bind_some]
    show run (.arrayNext stack (done ++ [last]) item) _ = _
    rw [run_itemsTokens stack (done ++ [last]) item items, List.append_assoc]
    rfl

/-- Reading the rest of an object. -/
theorem run_membersTokens (stack : List Frame) (done : List (List UInt8 × Json))
    (last : List UInt8 × Json) : ∀ members : List (List UInt8 × Json),
    run (.objectNext stack done last) (membersTokens members ++ [.closeObject]) =
      some (deliver stack (.object (done ++ last :: members)))
  | [] => by
    rfl
  | (name, value) :: members => by
    rw [membersTokens, List.cons_append, List.cons_append, List.cons_append, run_cons]
    show run (.value (.object (done ++ [last]) name :: stack)) _ = _
    rw [List.append_assoc, run_append, run_tokens _ value, Option.bind_some]
    show run (.objectNext stack (done ++ [last]) (name, value)) _ = _
    rw [run_membersTokens stack (done ++ [last]) (name, value) members, List.append_assoc]
    rfl

end

theorem parse_tokens (v : Json) : parse v.tokens = some v := by
  have h := run_tokens [] v
  rw [run] at h
  rw [parse, h]
  rfl

/-! ### Writing -/

/-- What is put between the tokens of a document: white space. -/
structure Layout where
  /-- Before an item or a member, and before what closes a container, by depth. -/
  newline : Nat → List UInt8
  afterColon : List UInt8
  newline_space : ∀ depth, ∀ b ∈ newline depth, isSpace b = true
  afterColon_space : ∀ b ∈ afterColon, isSpace b = true

/-- Nothing between the tokens. -/
def compact : Layout where
  newline _ := []
  afterColon := []
  newline_space _ _ h := nomatch h
  afterColon_space _ h := nomatch h

/-- A line each for items and members, two blanks further in at each level. -/
def indented : Layout where
  newline depth := 0x0A :: List.replicate (2 * depth) 0x20
  afterColon := [0x20]
  newline_space depth b h := by
    rcases List.mem_cons.mp h with rfl | h
    · rfl
    · rw [List.eq_of_mem_replicate h]
      rfl
  afterColon_space b h := by
    rw [List.mem_singleton.mp h]
    rfl

mutual

/-- A document as text. -/
def render (L : Layout) (depth : Nat) : Json → List UInt8
  | .null => Token.text .null
  | .bool value => Token.text (.bool value)
  | .number literal => Token.text (.number literal)
  | .string value => Token.text (.string value)
  | .array [] => Token.text .openArray ++ Token.text .closeArray
  | .array (item :: items) =>
    Token.text .openArray ++ (L.newline (depth + 1) ++ (item.render L (depth + 1) ++
      (renderItems L (depth + 1) items ++ (L.newline depth ++ Token.text .closeArray))))
  | .object [] => Token.text .openObject ++ Token.text .closeObject
  | .object ((name, value) :: members) =>
    Token.text .openObject ++ (L.newline (depth + 1) ++ (Token.text (.string name) ++
      (Token.text .colon ++ (L.afterColon ++ (value.render L (depth + 1) ++
        (renderMembers L (depth + 1) members ++ (L.newline depth ++ Token.text .closeObject)))))))

/-- The items after the first. -/
def renderItems (L : Layout) (depth : Nat) : List Json → List UInt8
  | [] => []
  | item :: items =>
    Token.text .comma ++ (L.newline depth ++ (item.render L depth ++ renderItems L depth items))

/-- The members after the first. -/
def renderMembers (L : Layout) (depth : Nat) : List (List UInt8 × Json) → List UInt8
  | [] => []
  | (name, value) :: members =>
    Token.text .comma ++ (L.newline depth ++ (Token.text (.string name) ++ (Token.text .colon ++
      (L.afterColon ++ (value.render L depth ++ renderMembers L depth members)))))

end

mutual

/-- The document with every string repaired. -/
def repair : Json → Json
  | .string value => .string (Utf8.repair value)
  | .array items => .array (repairItems items)
  | .object members => .object (repairMembers members)
  | v => v

def repairItems : List Json → List Json
  | [] => []
  | item :: items => item.repair :: repairItems items

def repairMembers : List (List UInt8 × Json) → List (List UInt8 × Json)
  | [] => []
  | (name, value) :: members => (Utf8.repair name, value.repair) :: repairMembers members

end

/-! ### What was written is read -/

theorem delimited_closing (L : Layout) (d : Nat) {b : UInt8} (hb : isNumberByte b = false)
    (rest : List UInt8) : Delimited (L.newline d ++ b :: rest) :=
  delimited_append (L.newline_space d) (delimited_cons hb rest)

theorem delimited_renderItems (L : Layout) (d : Nat) (items : List Json) {rest : List UInt8}
    (hrest : Delimited rest) : Delimited (renderItems L d items ++ rest) := by
  cases items with
  | nil => rwa [renderItems]
  | cons item items =>
    exact delimited_cons (by decide) _

theorem delimited_renderMembers (L : Layout) (d : Nat) (members : List (List UInt8 × Json))
    {rest : List UInt8} (hrest : Delimited rest) :
    Delimited (renderMembers L d members ++ rest) := by
  cases members with
  | nil => rwa [renderMembers]
  | cons member members =>
    exact delimited_cons (by decide) _

/-- Every number in the document is the text of one. -/
def Good (v : Json) : Prop := ∀ t ∈ v.tokens, t.Good

theorem good_string (value : List UInt8) : (string value).Good := forall_mem_singleton.mpr trivial

theorem good_null : null.Good := forall_mem_singleton.mpr trivial

theorem good_bool (value : Bool) : (bool value).Good := forall_mem_singleton.mpr trivial

theorem good_items_iff (items : List Json) :
    (∀ t ∈ itemsTokens items, t.Good) ↔ ∀ item ∈ items, item.Good := by
  induction items with
  | nil => simp [itemsTokens]
  | cons item items ih =>
    rw [itemsTokens, forall_mem_cons, forall_mem_append, ih, forall_mem_cons]
    exact and_iff_right trivial

theorem good_members_iff (members : List (List UInt8 × Json)) :
    (∀ t ∈ membersTokens members, t.Good) ↔ ∀ member ∈ members, member.2.Good := by
  induction members with
  | nil => simp [membersTokens]
  | cons member members ih =>
    rw [membersTokens, forall_mem_cons, forall_mem_cons, forall_mem_cons, forall_mem_append, ih,
      forall_mem_cons]
    exact (and_iff_right trivial).trans ((and_iff_right trivial).trans (and_iff_right trivial))

theorem good_array_cons {item : Json} {items : List Json} :
    (array (item :: items)).Good ↔ item.Good ∧ ∀ t ∈ itemsTokens items, t.Good := by
  rw [Good, tokens, forall_mem_cons, forall_mem_append, forall_mem_append, forall_mem_singleton]
  exact (and_iff_right trivial).trans (and_congr_right' (and_iff_left trivial))

theorem good_object_cons {name : List UInt8} {value : Json} :
    (object ((name, value) :: members)).Good ↔
      value.Good ∧ ∀ t ∈ membersTokens members, t.Good := by
  rw [Good, tokens, forall_mem_cons, forall_mem_cons, forall_mem_cons, forall_mem_append,
    forall_mem_append, forall_mem_singleton]
  exact (and_iff_right trivial).trans ((and_iff_right trivial).trans
    ((and_iff_right trivial).trans (and_congr_right' (and_iff_left trivial))))

theorem good_array_iff {items : List Json} : (array items).Good ↔ ∀ item ∈ items, item.Good := by
  cases items with
  | nil => simp [Good, tokens, Token.Good]
  | cons item items => rw [good_array_cons, good_items_iff, forall_mem_cons]

theorem good_object_iff : (object members).Good ↔ ∀ member ∈ members, member.2.Good := by
  cases members with
  | nil => simp [Good, tokens, Token.Good]
  | cons member members => rw [good_object_cons, good_members_iff, forall_mem_cons]

/-- What a text made of the texts of tokens and of white space is like. -/
structure TextRule (Q : List UInt8 → Prop) : Prop where
  append : ∀ {a b}, Q a → Q b → Q (a ++ b)
  token : ∀ t : Token, t.Good → Q t.text
  space : ∀ ws : List UInt8, (∀ b ∈ ws, isSpace b = true) → Q ws

mutual

/-- A rule for the text of a document. -/
theorem TextRule.render (h : TextRule Q) (L : Layout) (d : Nat) :
    ∀ v : Json, v.Good → Q (v.render L d)
  | .null, hv => h.token .null (hv _ List.mem_cons_self)
  | .bool value, hv => h.token (.bool value) (hv _ List.mem_cons_self)
  | .number literal, hv => h.token (.number literal) (hv _ List.mem_cons_self)
  | .string value, hv => h.token (.string value) (hv _ List.mem_cons_self)
  | .array [], _ => h.append (h.token .openArray trivial) (h.token .closeArray trivial)
  | .array (item :: items), hv => by
    obtain ⟨hitem, hitems⟩ := good_array_cons.mp hv
    exact h.append (h.token _ trivial) (h.append (h.space _ (L.newline_space _))
      (h.append (h.render L _ item hitem) (h.append (h.renderItems L _ items hitems)
        (h.append (h.space _ (L.newline_space _)) (h.token _ trivial)))))
  | .object [], _ => h.append (h.token .openObject trivial) (h.token .closeObject trivial)
  | .object ((name, value) :: members), hv => by
    obtain ⟨hval, hmems⟩ := good_object_cons.mp hv
    exact h.append (h.token _ trivial) (h.append (h.space _ (L.newline_space _))
      (h.append (h.token _ trivial) (h.append (h.token _ trivial)
        (h.append (h.space _ L.afterColon_space) (h.append (h.render L _ value hval)
          (h.append (h.renderMembers L _ members hmems)
            (h.append (h.space _ (L.newline_space _)) (h.token _ trivial))))))))

theorem TextRule.renderItems (h : TextRule Q) (L : Layout) (d : Nat) :
    ∀ items : List Json, (∀ t ∈ itemsTokens items, t.Good) → Q (renderItems L d items)
  | [], _ => h.space [] (fun _ hb => nomatch hb)
  | item :: items, hitems => by
    rw [good_items_iff, List.forall_mem_cons, ← good_items_iff] at hitems
    obtain ⟨hitem, hrest⟩ := hitems
    exact h.append (h.token _ trivial) (h.append (h.space _ (L.newline_space _))
      (h.append (h.render L _ item hitem) (h.renderItems L _ items hrest)))

/-- The same of the members of an object. -/
theorem TextRule.renderMembers (h : TextRule Q) (L : Layout) (d : Nat) :
    ∀ members : List (List UInt8 × Json), (∀ t ∈ membersTokens members, t.Good) →
      Q (renderMembers L d members)
  | [], _ => h.space [] (fun _ hb => nomatch hb)
  | (name, value) :: members, hmems => by
    rw [good_members_iff, List.forall_mem_cons, ← good_members_iff] at hmems
    obtain ⟨hval, hrest⟩ := hmems
    exact h.append (h.token _ trivial) (h.append (h.space _ (L.newline_space _))
      (h.append (h.token _ trivial) (h.append (h.token _ trivial)
        (h.append (h.space _ L.afterColon_space) (h.append (h.render L _ value hval)
          (h.renderMembers L _ members hrest))))))

end

mutual

/-- A document's text, with anything after it that ends it, is cut into the document's tokens. -/
theorem lex_render (L : Layout) (d : Nat) : ∀ (v : Json), v.Good → ∀ {rest : List UInt8},
    Delimited rest →
    lex (v.render L d ++ rest) = (lex rest).map (v.tokens.map Token.repair ++ ·)
  | .null, _, _, _ => lex_token .null trivial trivial
  | .bool value, _, _, _ => lex_token (.bool value) trivial trivial
  | .number literal, hv, _, hrest =>
    lex_token (.number literal) (hv (.number literal) (by simp [tokens])) hrest
  | .string value, _, _, _ => lex_token (.string value) trivial trivial
  | .array [], _, rest, _ => by
    rw [render, List.append_assoc, lex_token .openArray trivial trivial,
      lex_token .closeArray trivial trivial, Option.map_map]
    rfl
  | .array (item :: items), hv, rest, _ => by
    obtain ⟨hitem, hitems⟩ := good_array_cons.mp hv
    -- what follows an item starts with a bracket, a comma or white space
    have hcl : Delimited (L.newline d ++ (Token.text .closeArray ++ rest)) :=
      delimited_closing L d (by decide) rest
    simp only [render, append_assoc]
    rw [lex_token .openArray trivial trivial, lex_space (L.newline_space _),
      lex_render L _ item hitem (delimited_renderItems L _ items hcl),
      lex_renderItems L _ items hitems hcl, lex_space (L.newline_space _),
      lex_token .closeArray trivial trivial]
    simp only [Option.map_map, Function.comp_def, tokens, map_cons, map_append,
      append_assoc, cons_append, map_nil, nil_append]
  | .object [], _, rest, _ => by
    rw [render, append_assoc, lex_token .openObject trivial trivial,
      lex_token .closeObject trivial trivial, Option.map_map]
    rfl
  | .object ((name, value) :: members), hv, rest, _ => by
    obtain ⟨hval, hmems⟩ := good_object_cons.mp hv
    have hcl : Delimited (L.newline d ++ (Token.text .closeObject ++ rest)) :=
      delimited_closing L d (by decide) rest
    simp only [render, append_assoc]
    rw [lex_token .openObject trivial trivial, lex_space (L.newline_space _),
      lex_token (.string name) trivial trivial, lex_token .colon trivial trivial,
      lex_space L.afterColon_space,
      lex_render L _ value hval (delimited_renderMembers L _ members hcl),
      lex_renderMembers L _ members hmems hcl, lex_space (L.newline_space _),
      lex_token .closeObject trivial trivial]
    simp only [Option.map_map, Function.comp_def, tokens, map_cons, map_append,
      append_assoc, cons_append, map_nil, nil_append]

/-- The same of the items of an array. -/
theorem lex_renderItems (L : Layout) (d : Nat) : ∀ (items : List Json),
    (∀ t ∈ itemsTokens items, t.Good) → ∀ {rest : List UInt8}, Delimited rest →
    lex (renderItems L d items ++ rest) =
      (lex rest).map ((itemsTokens items).map Token.repair ++ ·)
  | [], _, rest, _ => by
    rw [renderItems, itemsTokens]
    simp
  | item :: items, hgood, rest, hrest => by
    rw [good_items_iff, List.forall_mem_cons, ← good_items_iff] at hgood
    obtain ⟨hitem, hitems⟩ := hgood
    simp only [renderItems, List.append_assoc]
    rw [lex_token .comma trivial trivial, lex_space (L.newline_space _),
      lex_render L _ item hitem (delimited_renderItems L _ items hrest),
      lex_renderItems L _ items hitems hrest]
    simp only [Option.map_map, Function.comp_def, itemsTokens, List.map_cons, List.map_append,
      List.append_assoc, List.cons_append]

/-- The same of the members of an object. -/
theorem lex_renderMembers (L : Layout) (d : Nat) : ∀ (members : List (List UInt8 × Json)),
    (∀ t ∈ membersTokens members, t.Good) → ∀ {rest : List UInt8}, Delimited rest →
    lex (renderMembers L d members ++ rest) =
      (lex rest).map ((membersTokens members).map Token.repair ++ ·)
  | [], _, rest, _ => by
    rw [renderMembers, membersTokens]
    simp
  | (name, value) :: members, hgood, rest, hrest => by
    rw [good_members_iff, List.forall_mem_cons, ← good_members_iff] at hgood
    obtain ⟨hval, hmems⟩ := hgood
    simp only [renderMembers, List.append_assoc]
    rw [lex_token .comma trivial trivial, lex_space (L.newline_space _),
      lex_token (.string name) trivial trivial, lex_token .colon trivial trivial,
      lex_space L.afterColon_space,
      lex_render L _ value hval (delimited_renderMembers L _ members hrest),
      lex_renderMembers L _ members hmems hrest]
    simp only [Option.map_map, Function.comp_def, membersTokens, List.map_cons, List.map_append,
      List.append_assoc, List.cons_append]

end

mutual

/-- The tokens of a repaired document. -/
theorem tokens_repair : ∀ v : Json, v.repair.tokens = v.tokens.map Token.repair
  | .null => rfl
  | .bool _ => rfl
  | .number _ => rfl
  | .string _ => rfl
  | .array [] => rfl
  | .array (item :: items) => by
    rw [repair, repairItems, tokens, tokens, tokens_repair item, tokens_repairItems items]
    simp only [List.map_cons, List.map_append]
    rfl
  | .object [] => rfl
  | .object ((name, value) :: members) => by
    rw [repair, repairMembers, tokens, tokens, tokens_repair value, tokens_repairMembers members]
    simp only [List.map_cons, List.map_append]
    rfl

theorem tokens_repairItems : ∀ items : List Json,
    itemsTokens (repairItems items) = (itemsTokens items).map Token.repair
  | [] => rfl
  | item :: items => by
    rw [repairItems, itemsTokens, itemsTokens, tokens_repair item, tokens_repairItems items]
    simp only [List.map_cons, List.map_append]
    rfl

theorem tokens_repairMembers : ∀ members : List (List UInt8 × Json),
    membersTokens (repairMembers members) = (membersTokens members).map Token.repair
  | [] => rfl
  | (name, value) :: members => by
    rw [repairMembers, membersTokens, membersTokens, tokens_repair value,
      tokens_repairMembers members]
    simp only [List.map_cons, List.map_append]
    rfl

end

/-- A document that is written, in any layout and with white space after it, is read back with its
strings repaired. -/
theorem read_render (L : Layout) (depth : Nat) {v : Json} (hv : v.Good) {ws : List UInt8}
    (hws : ∀ b ∈ ws, isSpace b = true) : read (v.render L depth ++ ws) = some v.repair := by
  have hend : Delimited ws := by
    have := delimited_append hws delimited_nil
    rwa [append_nil] at this
  have hlex : lex ws = some [] := by
    have := lex_space hws []
    rwa [append_nil] at this
  rw [read, lex_render L depth v hv hend, hlex, Option.map_some, append_nil, ← tokens_repair]
  exact parse_tokens v.repair

end Json
