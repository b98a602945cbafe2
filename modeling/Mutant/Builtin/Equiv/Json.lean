import Mutant.Builtin.Equiv.AuditVerify
import Mutant.Builtin.Json
import Mutant.Lib.Result

/-!
# `json_parse` of what `json_stringify` wrote

A value is written as the document `Object.json`; the text passes `jsonTextCheck` whatever it holds
(`jsonTextCheck_render`), and is read back as the value exactly when every string in it is UTF-8 and
it nests no deeper than the reader allows (`jsonParse_jsonStringify`).
-/

namespace Mutant.Builtin

open List
open Result hiding map_map
open Mutant.Security (Bytes text)

variable {elements : List Object} {pairs : List (Bytes × Object)} {v : Object} {depth : Nat}
  {xs : List Json} {fs mems : List (Bytes × Json)}

/-! ### The text check -/

theorem jsonScan_skip (front : Bytes) (inString : Bool) (rest : Bytes) :
    jsonScan front.length inString (front ++ rest) = jsonScan 0 inString rest := by
  induction front with
  | nil => rfl
  | cons b front ih => rw [length_cons, cons_append, jsonScan, ih]

theorem jsonScan_outside {l : Bytes} (h : ∀ b ∈ l, b ≠ 0x22) (rest : Bytes) :
    jsonScan 0 false (l ++ rest) = jsonScan 0 false rest := by
  induction l with
  | nil => rfl
  | cons b l ih =>
    rw [cons_append, jsonScan, decide_eq_false (h b mem_cons_self)]
    exact ih (forall_mem_cons.mp h).2

theorem jsonScan_plain {l : Bytes} (h : ∀ b ∈ l, b ≠ 0x22 ∧ b ≠ 0x5C) (rest : Bytes) :
    jsonScan 0 true (l ++ rest) = jsonScan 0 true rest := by
  induction l with
  | nil => rfl
  | cons b l ih =>
    obtain ⟨hquo, hslash⟩ := h b mem_cons_self
    rw [cons_append, jsonScan, if_neg hquo, if_neg hslash]
    exact ih (forall_mem_cons.mp h).2

/-- An escape the scan passes over. -/
theorem jsonScan_escape {front rest : Bytes}
    (h : escapeSkip (0x5C :: (front ++ rest)) = some front.length) :
    jsonScan 0 true (0x5C :: (front ++ rest)) = jsonScan 0 true rest := by
  rw [jsonScan, h]
  exact jsonScan_skip front true rest

/-- Within a string, a piece that was written is passed over. -/
theorem jsonScan_quotePiece {p : Utf8.Piece} (hpiece : ∀ c, p = .char c → Utf8.IsChar c)
    (rest : Bytes) : jsonScan 0 true (Json.quotePiece p ++ rest) = jsonScan 0 true rest := by
  -- a short escape, a `\u` escape of no surrogate, or plain bytes
  rcases Json.quotePiece_cases hpiece with ⟨b, e, hsh, -, hquo⟩ |
    ⟨u, hu, hsur, -, hquo⟩ | ⟨-, hquo, hpl⟩
  · have hunit := (Json.shortUnescape?_shortEscape hsh).2
    rw [hquo]
    have hnone : jsonEscapeUnit (0x5C :: ([e] ++ rest)) = none := by
      rw [jsonEscapeUnit]
      intro tail htail
      exact hunit (cons.inj (cons.inj htail).2).1
    have hskip : escapeSkip (0x5C :: ([e] ++ rest)) = some [e].length := by
      rw [escapeSkip, hnone]
      rfl
    exact jsonScan_escape hskip
  · have hsome : jsonEscapeUnit (0x5C :: ((Json.unitEscape u).tail ++ rest)) = some u :=
      Json.hex4?_digits hu rest
    have hhigh : isHigh u = false := by
      rw [isHigh, Bool.and_eq_false_iff, decide_eq_false_iff_not, decide_eq_false_iff_not]
      omega
    have hlow : isLow u = false := by
      rw [isLow, Bool.and_eq_false_iff, decide_eq_false_iff_not, decide_eq_false_iff_not]
      omega
    have hskip : escapeSkip (0x5C :: ((Json.unitEscape u).tail ++ rest)) =
        some (Json.unitEscape u).tail.length := by
      rw [escapeSkip, hsome]
      simp only [hhigh, hlow]
      rfl
    rw [hquo]
    exact jsonScan_escape hskip
  · rw [hquo]
    exact jsonScan_plain (fun b hb => ⟨(hpl b hb).2.1, (hpl b hb).1⟩) rest

/-- The scan passes over a quoted string. -/
theorem jsonScan_quote (value rest : Bytes) :
    jsonScan 0 false (Json.quote value ++ rest) = jsonScan 0 false rest := by
  have hps (ps : List Utf8.Piece) (h : ∀ c, .char c ∈ ps → Utf8.IsChar c) :
      jsonScan 0 true (ps.flatMap Json.quotePiece ++ (0x22 :: rest)) = jsonScan 0 false rest := by
    induction ps with
    | nil => rw [flatMap_nil, nil_append, jsonScan, if_pos rfl]
    | cons p ps ih =>
      rw [flatMap_cons, append_assoc, jsonScan_quotePiece fun c hc => h c (hc ▸ mem_cons_self)]
      exact ih fun c hc => h c (mem_cons_of_mem _ hc)
  rw [Json.quote, cons_append, append_assoc]
  exact hps _ fun _ => Utf8.isChar_of_mem_split

/-- Whatever was written passes the check. -/
theorem jsonTextCheck_render (L : Json.Layout) (depth : Nat) {v : Json} (hv : v.Good) :
    jsonTextCheck (v.render L depth) = .ok () := by
  have hspace (ws : Bytes) (hws : ∀ b ∈ ws, Json.isSpace b = true) :
      ∀ b ∈ ws, b ≠ 0x22 ∧ b.toNat < 0x80 := by
    intro b hb
    have := hws b hb
    simp only [Json.isSpace, Bool.or_eq_true, decide_eq_true_eq] at this
    rcases this with ((rfl | rfl) | rfl) | rfl <;> decide
  -- both halves of the check are kept by putting tokens and spaces together
  have hscan : Json.TextRule fun l => ∀ rest, jsonScan 0 false (l ++ rest) = jsonScan 0 false rest :=
    { append := fun ha hb rest => by rw [append_assoc, ha, hb]
      token := fun t ht => by
        rcases Json.Token.text_cases ht with ⟨value, rfl⟩ | hpl
        · exact jsonScan_quote value
        · exact jsonScan_outside fun b hb => (hpl b hb).1
      space := fun ws hws => jsonScan_outside fun b hb => (hspace ws hws b hb).1 }
  have hvalid : Json.TextRule fun l => Utf8.valid l = true :=
    { append := fun ha hb => by rw [Utf8.valid_append_of_valid ha, hb]
      token := fun t ht => Json.Token.valid_text ht
      space := fun ws hws => Utf8.valid_of_ascii fun b hb => (hspace ws hws b hb).2 }
  have hend := hscan.render L depth v hv []
  rw [append_nil] at hend
  rw [jsonTextCheck, hvalid.render L depth v hv, hend]
  rfl

/-! ### Values and their documents -/

mutual

/-- Built from STRING, INTEGER, BOOLEAN, NULL, ARRAY and HASH with STRING keys. -/
def Object.Plain : Object → Prop
  | .string _ => True
  | .integer _ => True
  | .boolean _ => True
  | .null => True
  | .array elements => PlainElements elements
  | .hash pairs => KeyMap.Increasing pairs ∧ PlainPairs pairs
  | _ => False

def PlainElements : List Object → Prop
  | [] => True
  | element :: elements => element.Plain ∧ PlainElements elements

def PlainPairs : List (Bytes × Object) → Prop
  | [] => True
  | (_, object) :: pairs => object.Plain ∧ PlainPairs pairs

end

mutual

/-- Every string and every key is UTF-8. -/
def Object.IsUtf8 : Object → Prop
  | .string value => Utf8.valid value = true
  | .array elements => ElementsUtf8 elements
  | .hash pairs => PairsUtf8 pairs
  | _ => True

def ElementsUtf8 : List Object → Prop
  | [] => True
  | element :: elements => element.IsUtf8 ∧ ElementsUtf8 elements

def PairsUtf8 : List (Bytes × Object) → Prop
  | [] => True
  | (key, object) :: pairs => (Utf8.valid key = true ∧ object.IsUtf8) ∧ PairsUtf8 pairs

end

mutual

/-- How deep arrays and hashes nest. -/
def Object.depth : Object → Nat
  | .array elements => elementsDepth elements + 1
  | .hash pairs => pairsDepth pairs + 1
  | _ => 0

def elementsDepth : List Object → Nat
  | [] => 0
  | element :: elements => max element.depth (elementsDepth elements)

def pairsDepth : List (Bytes × Object) → Nat
  | [] => 0
  | (_, object) :: pairs => max object.depth (pairsDepth pairs)

end

mutual

/-- The document a plain value is written as. -/
def Object.json : Object → Json
  | .string value => .string value
  | .integer value => jsonInt value.toInt
  | .boolean value => .bool value
  | .array elements => .array (elementsJson elements)
  | .hash pairs => .object (pairsJson pairs)
  | _ => .null

def elementsJson : List Object → List Json
  | [] => []
  | element :: elements => element.json :: elementsJson elements

def pairsJson : List (Bytes × Object) → List (Bytes × Json)
  | [] => []
  | (key, object) :: pairs => (key, object.json) :: pairsJson pairs

end

/-! ### Lists of values -/

theorem elementsUtf8_iff (elements : List Object) :
    ElementsUtf8 elements ↔ ∀ element ∈ elements, element.IsUtf8 := by
  induction elements with
  | nil => simp [ElementsUtf8]
  | cons element elements ih => rw [ElementsUtf8, ih, forall_mem_cons]

theorem pairsUtf8_iff (pairs : List (Bytes × Object)) :
    PairsUtf8 pairs ↔ ∀ pair ∈ pairs, Utf8.valid pair.1 = true ∧ pair.2.IsUtf8 := by
  induction pairs with
  | nil => simp [PairsUtf8]
  | cons pair pairs ih => rw [PairsUtf8, ih, forall_mem_cons]

theorem elementsJson_eq (elements : List Object) : elementsJson elements = elements.map Object.json := by
  induction elements with
  | nil => rfl
  | cons element elements ih => rw [elementsJson, ih, map_cons]

theorem pairsJson_eq (pairs : List (Bytes × Object)) :
    pairsJson pairs = pairs.map fun pair => (pair.1, pair.2.json) := by
  induction pairs with
  | nil => rfl
  | cons pair pairs ih => rw [pairsJson, ih, map_cons]

/-- Induction over plain values: an array after its elements, a hash after its values. -/
@[elab_as_elim]
theorem Object.plain_induction {motive : Object → Prop} (string : ∀ value, motive (.string value))
    (integer : ∀ value, motive (.integer value)) (boolean : ∀ value, motive (.boolean value))
    (null : motive .null)
    (array : ∀ elements, (∀ element ∈ elements, motive element) → motive (.array elements))
    (hash : ∀ pairs, KeyMap.Increasing pairs → (∀ pair ∈ pairs, motive pair.2) →
      motive (.hash pairs)) (v : Object) : v.Plain → motive v :=
  @Object.rec (fun v => v.Plain → motive v)
    (fun elements => PlainElements elements → ∀ element ∈ elements, motive element)
    (fun pairs => PlainPairs pairs → ∀ pair ∈ pairs, motive pair.2)
    (fun pair => pair.2.Plain → motive pair.2)
    (fun value _ => string value) nofun (fun value _ => integer value) nofun
    (fun value _ => boolean value) (fun _ => null) (fun elements ih h => array elements (ih h))
    (fun pairs ih h => hash pairs h.1 (ih h.2)) nofun nofun nofun
    nofun (fun _ _ hhead htail h => forall_mem_cons.mpr ⟨hhead h.1, htail h.2⟩)
    nofun (fun _ _ hhead htail h => forall_mem_cons.mpr ⟨hhead h.1, htail h.2⟩)
    (fun _ _ ih => ih) v

/-! ### Writing and reading a plain value -/

variable {N : FloatText}

theorem elementsToJSON_eq : elementsToJSON N elements = elements.mapM (objectToJSONValue N) :=
  eq_mapM (by rw [elementsToJSON]) (fun _ _ => by rw [elementsToJSON]) _

theorem pairsToJSON_eq : pairsToJSON N pairs =
    pairs.mapM fun pair => (objectToJSONValue N pair.2).map (pair.1, ·) :=
  eq_mapM (by rw [pairsToJSON]) (fun _ _ => by rw [pairsToJSON, bind_map]) _

/-- A plain value is written. -/
theorem objectToJSONValue_eq (h : v.Plain) : objectToJSONValue N v = .ok v.json := by
  refine Object.plain_induction (fun _ => rfl) (fun _ => rfl) (fun _ => rfl) rfl ?array ?hash v h
  case array =>
    intro elements ih
    rw [objectToJSONValue, elementsToJSON_eq, mapM_eq_ok ih, Object.json, elementsJson_eq]
    rfl
  case hash =>
    intro pairs _ ih
    rw [objectToJSONValue, pairsToJSON_eq, mapM_eq_ok fun pair hpair => by
      rw [ih pair hpair, Except.map], Object.json, pairsJson_eq]
    rfl

/-- The document of a plain value is one that can be written. -/
theorem good_json (h : v.Plain) : v.json.Good := by
  refine Object.plain_induction Json.good_string (fun value => good_jsonInt value.toInt) Json.good_bool
    Json.good_null ?array ?hash v h
  case array =>
    intro elements ih
    rw [Object.json, elementsJson_eq]
    rw [Json.good_array_iff]
    rwa [forall_mem_map]
  case hash =>
    intro pairs _ ih
    rw [Object.json, pairsJson_eq]
    rw [Json.good_object_iff]
    rwa [forall_mem_map]

theorem itemsToObject_eq : itemsToObject N xs = xs.mapM (jsonValueToObject N) :=
  eq_mapM (by rw [itemsToObject]) (fun _ _ => by rw [itemsToObject]) _

theorem membersToObject_eq : membersToObject N mems =
    mems.mapM fun member => (jsonValueToObject N member.2).map (member.1, ·) :=
  eq_mapM (by rw [membersToObject]) (fun _ _ => by rw [membersToObject, bind_map]) _

/-- A whole number is written without a point or an exponent. -/
theorem any_ofInt_eq_false (i : Int) :
    ((Decimal.ofInt i).any fun c => c = 0x2E || c = 0x65 || c = 0x45) = false := by
  have hds (n : Nat) :
      ∀ c ∈ Decimal.ofNat n, ¬ ((decide (c = 0x2E) || decide (c = 0x65) || decide (c = 0x45)) = true) := by
    intro c hc
    obtain ⟨d, hd, rfl⟩ := Decimal.isDigit_of_mem_ofNat hc
    simp only [Bool.or_eq_true, decide_eq_true_eq, not_or]
    exact ⟨⟨Decimal.digit_ne hd (by decide), Decimal.digit_ne hd (by decide)⟩,
      Decimal.digit_ne hd (by decide)⟩
  rw [any_eq_false]
  cases i with
  | ofNat n => exact hds n
  | negSucc n => exact forall_mem_cons.mpr ⟨by decide, hds (n + 1)⟩

/-- A plain value is made from its document. -/
theorem jsonValueToObject_json (h : v.Plain) : jsonValueToObject N v.json = .ok v := by
  refine Object.plain_induction (fun _ => rfl) ?integer (fun _ => rfl) rfl ?array ?hash v h
  case integer =>
    intro value
    rw [Object.json, jsonInt, jsonValueToObject, jsonNumberToObject, any_ofInt_eq_false,
      int64?_ofInt value.le_toInt value.toInt_lt]
    simp only [Bool.false_eq_true, if_false, Int64.ofInt_toInt]
  case array =>
    intro elements ih
    rw [Object.json, elementsJson_eq, jsonValueToObject, itemsToObject_eq,
      mapM_eq_ok_iff.mpr (forall₂_map_left_iff.mpr (forall₂_same.mpr ih))]
    rfl
  case hash =>
    intro pairs _ ih
    rw [Object.json, pairsJson_eq, jsonValueToObject, membersToObject_eq,
      mapM_eq_ok_iff.mpr (forall₂_map_left_iff.mpr (forall₂_same.mpr fun pair hpair => by
        rw [ih pair hpair, Except.map]))]
    rfl

theorem itemsDepth_map (h : ∀ element ∈ elements, element.json.depth = element.depth) :
    Json.itemsDepth (elements.map Object.json) = elementsDepth elements := by
  induction elements with
  | nil => rfl
  | cons element elements ih =>
    rw [map_cons, Json.itemsDepth, elementsDepth, h element mem_cons_self,
      ih (forall_mem_cons.mp h).2]

theorem membersDepth_map (h : ∀ pair ∈ pairs, pair.2.json.depth = pair.2.depth) :
    Json.membersDepth (pairs.map fun pair => (pair.1, pair.2.json)) = pairsDepth pairs := by
  induction pairs with
  | nil => rfl
  | cons pair pairs ih =>
    rw [map_cons, Json.membersDepth, pairsDepth, h pair mem_cons_self, ih (forall_mem_cons.mp h).2]

theorem depth_json (h : v.Plain) : v.json.depth = v.depth := by
  refine Object.plain_induction (fun _ => rfl) (fun _ => rfl) (fun _ => rfl) rfl ?array ?hash v h
  case array =>
    intro elements ih
    rw [Object.json, elementsJson_eq, Json.depth, itemsDepth_map ih, Object.depth]
  case hash =>
    intro pairs _ ih
    rw [Object.json, pairsJson_eq, Json.depth, membersDepth_map ih, Object.depth]

/-- Strings in UTF-8 are read as they are. -/
theorem repair_json (h : v.Plain) : v.IsUtf8 → v.json.repair = v.json := by
  refine Object.plain_induction ?string (fun _ _ => rfl) (fun _ _ => rfl) (fun _ => rfl) ?array ?hash v h
  case string =>
    intro value hval
    rw [Object.json, Json.repair, Utf8.repair_of_valid hval]
  case array =>
    intro elements ih hutf
    rw [Object.IsUtf8, elementsUtf8_iff] at hutf
    rw [Object.json, elementsJson_eq, Json.repair, Json.repairItems_eq_map, map_map]
    exact congrArg _ (map_congr_left fun element helem => ih element helem (hutf element helem))
  case hash =>
    intro pairs _ ih hutf
    rw [Object.IsUtf8, pairsUtf8_iff] at hutf
    rw [Object.json, pairsJson_eq, Json.repair, Json.repairMembers_eq_map, map_map]
    · refine congrArg _ (map_congr_left fun pair hpair => ?_)
      show (pair.1, pair.2.json.repair) = _
      rw [ih pair hpair (hutf pair hpair).2]
    · rw [map_map, all_eq_true, forall_mem_map]
      exact fun pair hpair => (hutf pair hpair).1

theorem elementsDepth_le {element : Object} (h : element ∈ elements) :
    element.depth ≤ elementsDepth elements := by
  induction elements with
  | nil => cases h
  | cons head elements ih =>
    rcases mem_cons.mp h with rfl | h
    · exact Nat.le_max_left _ _
    · exact Nat.le_trans (ih h) (Nat.le_max_right _ _)

theorem pairsDepth_le {pair : Bytes × Object} (h : pair ∈ pairs) :
    pair.2.depth ≤ pairsDepth pairs := by
  induction pairs with
  | nil => cases h
  | cons head pairs ih =>
    rcases mem_cons.mp h with rfl | h
    · exact Nat.le_max_left _ _
    · exact Nat.le_trans (ih h) (Nat.le_max_right _ _)

theorem decodeJSONItems_eq : decodeJSONItems depth xs = xs.mapM (decodeJSONValue depth) :=
  eq_mapM (by rw [decodeJSONItems]) (fun _ _ => by rw [decodeJSONItems]) _

/-- Members in the order of their keys make a map that is listed as they are. -/
theorem decodeJSONMembers_eq (h : ∀ member ∈ mems, decodeJSONValue depth member.2 = .ok member.2)
    (hincreasing : KeyMap.Increasing mems)
    (hflds : ∀ field ∈ fs, ∀ member ∈ mems, field.1 < member.1) :
    decodeJSONMembers depth fs mems = .ok (fs ++ mems) := by
  induction mems generalizing fs with
  | nil => rw [decodeJSONMembers, append_nil]
  | cons member mems ih =>
    obtain ⟨hfst, hrest⟩ := KeyMap.increasing_cons.mp hincreasing
    have hbef : ∀ field ∈ fs, field.1 < member.1 :=
      fun field hfld => hflds field hfld member mem_cons_self
    -- keys in order do not repeat
    have hnew : member.1 ∉ fs.map Prod.fst := by
      intro hmem
      obtain ⟨field, hfld, heq⟩ := mem_map.mp hmem
      have := hbef field hfld
      rw [heq] at this
      exact List.lt_irrefl _ this
    rw [decodeJSONMembers, if_neg hnew, h member mem_cons_self]
    show decodeJSONMembers depth (KeyMap.insert member.1 member.2 fs) mems = _
    rw [KeyMap.insert_of_lt hbef, ih (forall_mem_cons.mp h).2 hrest ?_, append_assoc]
    · rfl
    · intro field hfld m hm
      rcases mem_append.mp hfld with hfld | hfld
      · exact hflds field hfld m (mem_cons_of_mem _ hm)
      · rw [mem_singleton.mp hfld]
        exact hfst m hm

/-- The document of a plain value is decoded as it is, where it may nest as deep. -/
theorem decodeJSONValue_json (h : v.Plain) :
    ∀ depth, depth + v.depth ≤ maxJSONDepth → decodeJSONValue depth v.json = .ok v.json := by
  refine Object.plain_induction (fun _ _ _ => rfl) (fun _ _ _ => rfl) (fun _ _ _ => rfl)
    (fun _ _ => rfl) ?array ?hash v h
  case array =>
    intro elements ih depth hdep
    rw [Object.depth] at hdep
    rw [Object.json, elementsJson_eq, decodeJSONValue, if_neg (by omega), decodeJSONItems_eq,
      mapM_eq_ok_iff.mpr (forall₂_same.mpr (forall_mem_map.mpr fun element helem => ?_))]
    · rfl
    · have := elementsDepth_le helem
      exact ih element helem (depth + 1) (by omega)
  -- the keys of a hash are written in order, so none repeats
  case hash =>
    intro pairs hincreasing ih depth hdep
    rw [Object.depth] at hdep
    rw [Object.json, pairsJson_eq, decodeJSONValue, if_neg (by omega), decodeJSONMembers_eq]
    · rfl
    · rw [forall_mem_map]
      intro pair hpair
      have := pairsDepth_le hpair
      exact ih pair hpair (depth + 1) (by omega)
    · rw [KeyMap.Increasing, map_map]
      exact hincreasing
    · exact forall_mem_nil _

/-! ### What is read -/

/-- The members of an object that is decoded, in any order. -/
theorem mem_of_decodeJSONMembers {out : List (Bytes × Json)}
    (h : decodeJSONMembers depth fs mems = .ok out) :
    (∀ member ∈ mems, ∃ value, decodeJSONValue depth member.2 = .ok value) ∧
      ∀ field ∈ out, field ∈ fs ∨
        ∃ member ∈ mems, field.1 = member.1 ∧ decodeJSONValue depth member.2 = .ok field.2 := by
  induction mems generalizing fs with
  | nil =>
    cases h
    exact ⟨nofun, fun field hfld => .inl hfld⟩
  | cons member mems ih =>
    rw [decodeJSONMembers] at h
    split_ifs at h with hrepeated
    obtain ⟨value, hval, h⟩ := ok_of_bind h
    obtain ⟨hmems, hout⟩ := ih h
    refine ⟨forall_mem_cons.mpr ⟨⟨value, hval⟩, hmems⟩, fun field hfld => ?_⟩
    -- a later member of the same name takes the place of an earlier one
    rcases hout field hfld with hold | ⟨m, hm, hkey, hdec⟩
    · rcases KeyMap.mem_of_mem_insert hold with rfl | hold
      · exact .inr ⟨member, mem_cons_self, rfl, hval⟩
      · exact .inl hold
    · exact .inr ⟨m, mem_cons_of_mem _ hm, hkey, hdec⟩

/-- What is decoded does not nest too deep. -/
theorem depth_of_decodeJSONValue (v : Json) : ∀ depth value,
    decodeJSONValue depth v = .ok value → v.depth = 0 ∨ depth + v.depth ≤ maxJSONDepth := by
  induction v using Json.tree_induction with
  | null => exact fun _ _ _ => .inl rfl
  | bool => exact fun _ _ _ => .inl rfl
  | number => exact fun _ _ _ => .inl rfl
  | string => exact fun _ _ _ => .inl rfl
  -- a container is checked before its items are decoded
  | array xs ih =>
    intro depth value h
    rw [decodeJSONValue] at h
    split_ifs at h with hdeep
    obtain ⟨out, hout, -⟩ := ok_of_map h
    rw [decodeJSONItems_eq] at hout
    have hitems : Json.itemsDepth xs ≤ maxJSONDepth - (depth + 1) := by
      apply Json.itemsDepth_le
      intro item hitem
      obtain ⟨o, ho⟩ := exists_of_mapM hout item hitem
      rcases ih item hitem (depth + 1) o ho with hzero | hle <;> omega
    rw [Json.depth]
    omega
  | object mems ih =>
    intro depth value h
    rw [decodeJSONValue] at h
    split_ifs at h with hdeep
    obtain ⟨out, hout, -⟩ := ok_of_map h
    have hmems : Json.membersDepth mems ≤ maxJSONDepth - (depth + 1) := by
      apply Json.membersDepth_le
      intro member hmem
      obtain ⟨o, ho⟩ := (mem_of_decodeJSONMembers hout).1 member hmem
      rcases ih member hmem (depth + 1) o ho with hzero | hle <;> omega
    rw [Json.depth]
    omega

/-- Decoding keeps what is UTF-8. -/
theorem isUtf8_of_decodeJSONValue (v : Json) : ∀ depth value,
    decodeJSONValue depth v = .ok value → v.IsUtf8 → value.IsUtf8 := by
  induction v using Json.tree_induction with
  | null => exact fun _ _ h hutf => Except.ok.inj h ▸ hutf
  | bool => exact fun _ _ h hutf => Except.ok.inj h ▸ hutf
  | number => exact fun _ _ h hutf => Except.ok.inj h ▸ hutf
  | string => exact fun _ _ h hutf => Except.ok.inj h ▸ hutf
  | array xs ih =>
    intro depth value h hutf
    rw [decodeJSONValue] at h
    split_ifs at h with hdeep
    obtain ⟨out, hout, rfl⟩ := ok_of_map h
    rw [decodeJSONItems_eq] at hout
    rw [Json.isUtf8_array] at hutf ⊢
    intro value hval
    obtain ⟨item, hitem, hdec⟩ := (mem_mapM hout).mp hval
    exact ih item hitem (depth + 1) value hdec (hutf item hitem)
  | object mems ih =>
    intro depth value h hutf
    rw [decodeJSONValue] at h
    split_ifs at h with hdeep
    obtain ⟨out, hout, rfl⟩ := ok_of_map h
    rw [Json.isUtf8_object] at hutf ⊢
    intro field hfld
    -- a field that is kept is one of the members, under its own name
    rcases (mem_of_decodeJSONMembers hout).2 field hfld with hold | ⟨member, hmem, hkey, hdec⟩
    · cases hold
    · obtain ⟨hname, hval⟩ := hutf member hmem
      exact ⟨hkey ▸ hname, ih member hmem (depth + 1) field.2 hdec hval⟩

/-- A value made from a document in UTF-8 is in UTF-8. -/
theorem isUtf8_of_jsonValueToObject (v : Json) : ∀ object,
    jsonValueToObject N v = .ok object → v.IsUtf8 → object.IsUtf8 := by
  induction v using Json.tree_induction with
  | null => exact fun _ h _ => Except.ok.inj h ▸ trivial
  | bool => exact fun _ h _ => Except.ok.inj h ▸ trivial
  | string => exact fun _ h hutf => Except.ok.inj h ▸ hutf
  | number lit =>
    intro object h hutf
    rw [jsonValueToObject, jsonNumberToObject] at h
    -- a float, an integer, or the literal itself where no integer holds it
    split at h <;> split at h <;> cases h
    · trivial
    · trivial
    · exact hutf
  | array xs ih =>
    intro object h hutf
    obtain ⟨elements, helements, rfl⟩ := ok_of_map h
    rw [Json.isUtf8_array] at hutf
    rw [Object.IsUtf8, elementsUtf8_iff]
    intro element helem
    rw [itemsToObject_eq] at helements
    obtain ⟨item, hitem, hobject⟩ := (mem_mapM helements).mp helem
    exact ih item hitem element hobject (hutf item hitem)
  | object mems ih =>
    intro object h hutf
    obtain ⟨pairs, hpairs, rfl⟩ := ok_of_map h
    rw [Json.isUtf8_object] at hutf
    rw [Object.IsUtf8, pairsUtf8_iff]
    intro pair hpair
    rw [membersToObject_eq] at hpairs
    obtain ⟨member, hmem, hmade⟩ := (mem_mapM hpairs).mp hpair
    obtain ⟨object, hobject, rfl⟩ := ok_of_map hmade
    exact (hutf member hmem).imp_right (ih member hmem object hobject)

/-! ### The round trip -/

/-- A plain value is written, and what is written is parsed as the value exactly when its strings
and keys are UTF-8 and it nests no deeper than the bound. -/
theorem jsonParse_jsonStringify {v : Object} (h : v.Plain) :
    ∃ output, jsonStringify N v = .ok output ∧
      (jsonParse N output = .ok v ↔ v.IsUtf8 ∧ v.depth ≤ maxJSONDepth) := by
  have hgood := good_json h
  have hread : Json.read (v.json.render Json.compact 0) = some v.json.repair := by
    have hnone : ∀ b ∈ ([] : Bytes), Json.isSpace b = true := nofun
    have hrender := Json.read_render Json.compact 0 hgood hnone
    rwa [append_nil] at hrender
  refine ⟨_, by rw [jsonStringify, objectToJSONValue_eq h]; rfl, ?_⟩
  -- what is read back is the document with its strings repaired
  have hdocument : decodeJSONDocument (v.json.render Json.compact 0) =
      decodeJSONValue 0 v.json.repair := by
    rw [decodeJSONDocument, jsonTextCheck_render Json.compact 0 hgood, hread]
    rfl
  rw [jsonParse, hdocument]
  constructor
  · intro hparse
    obtain ⟨value, hvalue, hobject⟩ := ok_of_bind hparse
    constructor
    · exact isUtf8_of_jsonValueToObject value v hobject
        (isUtf8_of_decodeJSONValue _ 0 value hvalue (Json.isUtf8_repair hgood))
    · have := depth_of_decodeJSONValue _ 0 value hvalue
      rw [Json.depth_repair, depth_json h] at this
      omega
  · rintro ⟨hutf, hdepth⟩
    rw [repair_json h hutf, decodeJSONValue_json h 0 (by omega)]
    exact jsonValueToObject_json h

/-- A reader and writer for programs without floats. -/
def noFloats : FloatText := ⟨fun _ => none, fun _ => none⟩

theorem jsonParse_jsonStringify_hash :
    ∃ output, jsonStringify noFloats (.hash [(text "a", .array [.integer 1, .string (text "b")])]) =
        .ok output ∧
      jsonParse noFloats output = .ok (.hash [(text "a", .array [.integer 1, .string (text "b")])]) := by
  have hplain : Object.Plain (.hash [(text "a", .array [.integer 1, .string (text "b")])]) :=
    ⟨by decide, ⟨trivial, trivial, trivial⟩, trivial⟩
  obtain ⟨output, houtput, hparse⟩ := jsonParse_jsonStringify (N := noFloats) hplain
  have hutf : Utf8.valid (text "b") = true := by decide
  exact ⟨output, houtput, hparse.mpr ⟨⟨⟨by decide, trivial, hutf, trivial⟩, trivial⟩, by decide⟩⟩

/-- One byte that is not UTF-8: it is written as an escape, and read as U+FFFD. -/
theorem jsonParse_jsonStringify_badByte :
    ∃ output, jsonStringify noFloats (.string [0xFF]) = .ok output ∧
      jsonParse noFloats output = .ok (.string Utf8.replacement) ∧
      (Object.string Utf8.replacement ≠ .string [0xFF]) := by
  refine ⟨text "\"\\ufffd\"", rfl, rfl, ?_⟩
  intro h
  exact absurd (Object.string.inj h) (by decide)

end Mutant.Builtin
