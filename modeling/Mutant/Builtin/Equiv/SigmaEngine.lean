import Mutant.Builtin.SigmaEngine

/-!
# Base64 values are found at every offset

Wherever a value stands in some bytes, their base64 text holds the variant for its offset.  The
variant says something only if it has a character, and for the second offset a value of one byte
settles none.

* `sigmaBase64Offsets_cover`: the variants are found;
* `sigmaBase64Offsets_eq_nil_iff`: when a variant is empty.
-/

namespace Mutant.Builtin

open List

variable {value : List UInt8}

/-- A variant is what the value settles after `i` bytes, past what those reach into. -/
theorem sigmaBase64Offsets_getElem? {i : Nat} (hi : i < 3) (hval : value ≠ []) :
    (sigmaBase64Offsets value)[i]? = some (((Base64.encode (replicate i 32 ++ value)).take
      (Base64.settled (i + value.length))).drop (Base64.touched i)) := by
  have hpos := length_pos_of_ne_nil hval
  have hlen : (Base64.encode (replicate i 32 ++ value)).length =
      4 * ((i + value.length + 2) / 3) := by
    rw [Base64.length_encode, length_append, length_replicate]
  rw [sigmaBase64Offsets, getElem?_map, getElem?_range hi, Option.map_some]
  dsimp only
  rw [hlen]
  have hend : 4 * ((i + value.length + 2) / 3) - [0, 3, 2].getD ((value.length + i) % 3) 0 =
      Base64.settled (i + value.length) := by
    unfold Base64.settled
    obtain h | h | h : (i + value.length) % 3 = 0 ∨ (i + value.length) % 3 = 1 ∨
      (i + value.length) % 3 = 2 := by omega
    all_goals
      rw [Nat.add_comm value.length i, h]
      simp only [getD_cons_zero, getD_cons_succ]
      omega
  have hst : min ([0, 2, 3].getD i 0) (4 * ((i + value.length + 2) / 3)) = Base64.touched i := by
    obtain rfl | rfl | rfl : i = 0 ∨ i = 1 ∨ i = 2 := by omega
    all_goals
      simp only [getD_cons_zero, getD_cons_succ, Base64.touched]
      omega
  rw [hend, hst, max_eq_right]
  unfold Base64.touched Base64.settled
  omega

theorem sigmaBase64Offsets_eq_nil_iff {i : Nat} {variant : List UInt8} (hi : i < 3)
    (hval : value ≠ []) (h : (sigmaBase64Offsets value)[i]? = some variant) :
    variant = [] ↔ i = 1 ∧ value.length = 1 := by
  have hpos := length_pos_of_ne_nil hval
  rw [sigmaBase64Offsets_getElem? hi hval] at h
  cases h
  rw [drop_eq_nil_iff, length_take, Base64.length_encode, length_append]
  unfold Base64.touched Base64.settled
  omega

/-- A base64 text holds the variant for the offset of each value in it, and every variant has a
character exactly when the value has two bytes at least. -/
theorem sigmaBase64Offsets_cover (value : List UInt8) (hvalue : value ≠ []) :
    (∀ before after, ∃ variant, (sigmaBase64Offsets value)[before.length % 3]? = some variant ∧
      variant <:+: Base64.encode (before ++ value ++ after)) ∧
      ((∀ variant ∈ sigmaBase64Offsets value, variant ≠ []) ↔ 2 ≤ value.length) := by
  refine ⟨fun before after => ?_, ?_⟩
  · refine ⟨_, sigmaBase64Offsets_getElem? (Nat.mod_lt _ (by decide)) hvalue, ?_⟩
    -- the whole groups before, and the bytes that share a group with the value
    obtain ⟨groups, front, rfl, hgroups, hfront⟩ : ∃ groups front, before = groups ++ front ∧
        groups.length % 3 = 0 ∧ front.length = before.length % 3 := by
      refine ⟨before.take (before.length / 3 * 3), before.drop (before.length / 3 * 3),
        (take_append_drop ..).symm, ?_, ?_⟩
      · rw [length_take]
        omega
      · rw [length_drop]
        omega
    rw [← hfront, append_assoc, append_assoc, Base64.encode_append _ hgroups]
    refine IsInfix.trans ?_ (suffix_append _ _).isInfix
    have hdrop := Base64.drop_touched_encode value
      (length_replicate (n := front.length) (a := 32)) (by rw [length_replicate]; omega)
    rw [length_replicate] at hdrop
    rw [drop_take, hdrop, ← drop_take, ← append_assoc, ← length_append]
    exact (drop_suffix _ _).isInfix.trans (Base64.take_settled_prefix _ after).isInfix
  · constructor
    · intro hall
      have hsecond := sigmaBase64Offsets_getElem? (i := 1) (by decide) hvalue
      have hne := hall _ (mem_of_getElem? hsecond)
      rw [Ne, sigmaBase64Offsets_eq_nil_iff (by decide) hvalue hsecond] at hne
      have := length_pos_of_ne_nil hvalue
      omega
    · intro htwo variant hvariant hnil
      obtain ⟨i, hi⟩ := getElem?_of_mem hvariant
      have hlt : i < 3 := (List.getElem?_eq_some_iff.mp hi).1
      have := (sigmaBase64Offsets_eq_nil_iff hlt hvalue hi).mp hnil
      omega

/-- The second variant of a value of one byte is empty. -/
theorem sigmaBase64Offsets_one : [] ∈ sigmaBase64Offsets [65] := by decide

theorem sigmaBase64Offsets_cover_two :
    (∃ variant, (sigmaBase64Offsets [65, 66])[1]? = some variant ∧
      variant <:+: Base64.encode ([67] ++ [65, 66] ++ [68])) ∧
      ∀ variant ∈ sigmaBase64Offsets [65, 66], variant ≠ [] := by
  obtain ⟨hfound, hsome⟩ := sigmaBase64Offsets_cover [65, 66] (by decide)
  exact ⟨hfound [67] [68], hsome.mpr (by decide)⟩

end Mutant.Builtin
