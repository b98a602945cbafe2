import Mutant.Lib.Json.Tree

/-!
# What a document is decoded as

A map keeps the last of the members with one name.  How deep a document nests is limited.

* `decode_render`: what was written is decoded as it was repaired.
-/

namespace Json

open List

variable {members : List (List UInt8 × Json)}

/-- The value a map has for a name: the last one written. -/
def member? (name : List UInt8) : List (List UInt8 × Json) → Option Json
  | [] => none
  | (n, v) :: members => (member? name members).or (if n = name then some v else none)

mutual

/-- How deep arrays and objects nest. -/
def depth : Json → Nat
  | .array items => itemsDepth items + 1
  | .object members => membersDepth members + 1
  | _ => 0

def itemsDepth : List Json → Nat
  | [] => 0
  | item :: items => max item.depth (itemsDepth items)

def membersDepth : List (List UInt8 × Json) → Nat
  | [] => 0
  | (_, value) :: members => max value.depth (membersDepth members)

end

/-- How deep a document may nest for the decoder. -/
def maxNestingDepth : Nat := 10000

/-- The document a text is decoded as, when it is one and nothing follows it. -/
def decode (text : List UInt8) : Option Json :=
  (read text).filter fun v => v.depth ≤ maxNestingDepth

/-- The members a text is decoded as, into a map. -/
def decodeMap (text : List UInt8) : Option (List (List UInt8 × Json)) :=
  match decode text with
  | some (.object members) => some members
  | some .null => some []
  | _ => none

theorem repairItems_eq_map (xs : List Json) : repairItems xs = xs.map repair := by
  induction xs with
  | nil => rfl
  | cons item xs ih => rw [repairItems, ih]; rfl

theorem repairMembers_eq (members : List (List UInt8 × Json)) :
    repairMembers members = members.map fun member => (Utf8.repair member.1, member.2.repair) := by
  induction members with
  | nil => rfl
  | cons member members ih => rw [repairMembers, ih]; rfl

/-- Names that are UTF-8 are kept. -/
theorem repairMembers_eq_map (h : (members.map Prod.fst).all Utf8.valid = true) :
    repairMembers members = members.map fun member => (member.1, member.2.repair) := by
  rw [all_map, all_eq_true] at h
  rw [repairMembers_eq]
  apply map_congr_left
  intro member hmem
  rw [Utf8.repair_of_valid (h member hmem)]

mutual

@[simp] theorem depth_repair : ∀ v : Json, v.repair.depth = v.depth
  | .null => rfl
  | .bool _ => rfl
  | .number _ => rfl
  | .string _ => rfl
  | .array items => by
    rw [repair, depth, depth, itemsDepth_repair items]
  | .object members => by
    rw [repair, depth, depth, membersDepth_repair members]

theorem itemsDepth_repair : ∀ items : List Json, itemsDepth (repairItems items) = itemsDepth items
  | [] => rfl
  | item :: items => by
    rw [repairItems, itemsDepth, itemsDepth, depth_repair item, itemsDepth_repair items]

theorem membersDepth_repair : ∀ members : List (List UInt8 × Json),
    membersDepth (repairMembers members) = membersDepth members
  | [] => rfl
  | (_, value) :: members => by
    rw [repairMembers, membersDepth, membersDepth, depth_repair value, membersDepth_repair members]

end

/-- A document that is written is decoded as itself repaired. -/
theorem decode_render (L : Layout) (d : Nat) {v : Json} (hv : v.Good)
    (hdep : v.depth ≤ maxNestingDepth) {ws : List UInt8} (hws : ∀ b ∈ ws, isSpace b = true) :
    decode (v.render L d ++ ws) = some v.repair := by
  rw [decode, read_render L d hv hws, Option.filter_some, if_pos (by simpa using hdep)]

theorem itemsDepth_le {xs : List Json} {n : Nat} (h : ∀ item ∈ xs, item.depth ≤ n) :
    itemsDepth xs ≤ n := by
  induction xs with
  | nil => exact Nat.zero_le n
  | cons item xs ih =>
    exact Nat.max_le.mpr ⟨h item mem_cons_self,
      ih (forall_mem_cons.mp h).2⟩

theorem membersDepth_le {n : Nat}
    (h : ∀ member ∈ members, member.2.depth ≤ n) : membersDepth members ≤ n := by
  induction members with
  | nil => exact Nat.zero_le n
  | cons member members ih =>
    exact Nat.max_le.mpr ⟨h member mem_cons_self,
      ih (forall_mem_cons.mp h).2⟩

/-! ### Documents in UTF-8 -/

mutual

/-- Every string, every name and every number is UTF-8. -/
def IsUtf8 : Json → Prop
  | .string value => Utf8.valid value = true
  | .number literal => Utf8.valid literal = true
  | .array items => ItemsUtf8 items
  | .object members => MembersUtf8 members
  | _ => True

def ItemsUtf8 : List Json → Prop
  | [] => True
  | item :: items => item.IsUtf8 ∧ ItemsUtf8 items

def MembersUtf8 : List (List UInt8 × Json) → Prop
  | [] => True
  | (name, value) :: members => (Utf8.valid name = true ∧ value.IsUtf8) ∧ MembersUtf8 members

end

theorem isUtf8_array (xs : List Json) : (array xs).IsUtf8 ↔ ∀ item ∈ xs, item.IsUtf8 := by
  rw [IsUtf8]
  induction xs with
  | nil => simp [ItemsUtf8]
  | cons item xs ih => rw [ItemsUtf8, ih, forall_mem_cons]

theorem isUtf8_object (members : List (List UInt8 × Json)) : (object members).IsUtf8 ↔
    ∀ member ∈ members, Utf8.valid member.1 = true ∧ member.2.IsUtf8 := by
  rw [IsUtf8]
  induction members with
  | nil => simp [MembersUtf8]
  | cons member members ih => rw [MembersUtf8, ih, forall_mem_cons]

/-- What was written and read back is UTF-8. -/
theorem isUtf8_repair {v : Json} (h : v.Good) : v.repair.IsUtf8 := by
  induction v using tree_induction with
  | null => trivial
  | bool => trivial
  | string value => exact Utf8.valid_repair value
  | number lit =>
    exact Token.valid_text (t := .number lit) (h _ mem_cons_self)
  | array xs ih =>
    rw [repair, repairItems_eq_map, isUtf8_array, forall_mem_map]
    exact fun item hitem => ih item hitem (good_array_iff.mp h item hitem)
  | object members ih =>
    rw [repair, repairMembers_eq, isUtf8_object, forall_mem_map]
    exact fun m hm => ⟨Utf8.valid_repair m.1, ih m hm (good_object_iff.mp h m hm)⟩

end Json
