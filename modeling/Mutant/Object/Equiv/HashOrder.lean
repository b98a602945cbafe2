import Mathlib.Data.List.Lex
import Mathlib.Data.Prod.Lex
import Mutant.Object.HashOrder
import Mutant.Security.Equiv.RecordKeys

/-!
# One order of a hash's entries

Each entry has a rank in a linear order, and the comparison that `SortedPairs` sorts by is the one of
the ranks (`pairLess_iff`).  Entries of one hash have different ranks, so there is one sorted list.
-/

namespace Mutant.Object

open List
open Mutant.Security (Bytes Primitives text)

variable {a b : RenderedPair}

/-! ### Ranks -/

def codes (bytes : Bytes) : List ℤ := bytes.map fun b => (b.toNat : ℤ)

theorem codes_injective : Function.Injective codes :=
  map_injective_iff.mpr fun _ _ h => UInt8.toNat_inj.mp (Int.ofNat_inj.mp h)

/-- Texts are ordered as their bytes. -/
theorem codes_lt_iff {a b : Bytes} : codes a < codes b ↔ a < b := by
  induction a generalizing b with
  | nil => cases b <;> simp [codes]
  | cons x a ih =>
    cases b with
    | nil => simp [codes]
    | cons y b =>
      have hrest : map (fun b : UInt8 => (b.toNat : ℤ)) a < map (fun b => (b.toNat : ℤ)) b ↔ a < b := ih
      simp only [codes, map_cons, cons_lt_cons_iff, hrest, Int.ofNat_lt, Int.ofNat_inj,
        UInt8.lt_iff_toNat_lt, UInt8.toNat_inj]

/-- Where a key is among those of its type. -/
def payload : Obj → List ℤ
  | .integer value => [value]
  | .boolean value => [if value then 1 else 0]
  | .string value => codes value
  | .bytes value _ => codes value
  | .float bits =>
    if isNaN bits then [1, bits.toNat] else [0, number bits, if signbit bits then 0 else 1]
  | _ => []

def keyRank (key : Obj) : List (List ℤ) := [codes key.type, payload key]

def HashKey.rank (key : HashKey) : List (List ℤ) :=
  [codes key.type, [(key.value.toNat : ℤ)], codes key.text]

def rank (pair : RenderedPair) : List (List ℤ) ×ₗ List (List ℤ) :=
  toLex (keyRank pair.keyObj, pair.hashKey.rank)

theorem HashKey.rank_injective : Function.Injective HashKey.rank := by
  rintro ⟨type, value, text⟩ ⟨type', value', text'⟩ h
  simp only [HashKey.rank, cons.injEq, codes_injective.eq_iff, Int.ofNat_inj, UInt64.toNat_inj] at h
  simp [h]

/-! ### The comparison -/

/-- Floats are ordered by number, then sign; what is no number comes last, by bits. -/
theorem floatKeyLess_iff (left right : UInt64) :
    floatKeyLess left right = true ↔ payload (.float left) < payload (.float right) := by
  unfold floatKeyLess payload
  cases hleft : isNaN left <;> cases hrt : isNaN right
  · cases hsign : signbit left <;> cases hsign' : signbit right <;>
      by_cases h : number left = number right <;>
      simp [cons_lt_cons_iff, hleft, hrt, hsign, hsign', h]
  · simp [cons_lt_cons_iff, hleft, hrt]
  · simp [cons_lt_cons_iff, hleft, hrt]
  · simp [cons_lt_cons_iff, hleft, hrt, UInt64.lt_iff_toNat_lt]

theorem HashKey.less_iff (k k' : HashKey) : k.less k' = true ↔ k.rank < k'.rank := by
  have hval : k.value = k'.value ↔ (k.value.toNat : ℤ) = k'.value.toNat := by
    rw [Int.ofNat_inj, UInt64.toNat_inj]
  unfold HashKey.less HashKey.rank
  simp only [ne_eq, ← codes_injective.eq_iff, hval, UInt64.lt_iff_toNat_lt, ← Int.ofNat_lt,
    ← codes_lt_iff, cons_lt_cons_iff]
  split_ifs with h h' <;> simp_all

/-- Keys compare as their ranks. -/
theorem hashKeyLess_iff {P : Primitives} {k k' : HashKey} (R : Rendering)
    (ha : a.keyObj.hashKey P = some k) (hb : b.keyObj.hashKey P = some k') :
    hashKeyLess R.ordered a b = true ↔ keyRank a.keyObj < keyRank b.keyObj := by
  unfold hashKeyLess keyRank
  generalize a.keyObj = x at *
  generalize b.keyObj = y at *
  rw [cons_lt_cons_iff]
  by_cases htype : x.type = y.type
  · simp only [htype, ne_eq, not_true, if_false, lt_self_iff_false, true_and, false_or,
      cons_lt_cons_iff, and_false, or_false]
    cases x <;> cases ha <;> cases y <;> cases hb <;> try exact absurd htype (of_decide_eq_false rfl)
    · simp [payload, cons_lt_cons_iff]
    · exact floatKeyLess_iff _ _
    · next value value' => cases value <;> cases value' <;> simp [payload, cons_lt_cons_iff]
    · simp [payload, codes_lt_iff]
    · simp [payload, codes_lt_iff]
  · simp [htype, codes_lt_iff, codes_injective.eq_iff]

theorem pairLess_iff {P : Primitives} (R : Rendering) (ha : a.keyObj.hashKey P = some a.hashKey)
    (hb : b.keyObj.hashKey P = some b.hashKey) : pairLess R.ordered a b = true ↔ rank a < rank b := by
  unfold pairLess
  rw [Prod.Lex.lt_iff]
  simp only [hashKeyLess_iff R ha hb, hashKeyLess_iff R hb ha]
  rcases lt_trichotomy (keyRank a.keyObj) (keyRank b.keyObj) with h | h | h
  · simp [rank, h]
  · simp [rank, h, HashKey.less_iff]
  · simp [rank, h, h.not_gt, h.ne']

/-! ### The one order -/

section Filed

variable {P : Primitives} {R : Rendering} {pairs ranged : List RenderedPair}
  (hfiled : ∀ pair ∈ pairs, pair.keyObj.hashKey P = some pair.hashKey)

include hfiled in
/-- An entry does not come before another exactly when its rank is at least the other's. -/
theorem pairLess_eq_false_iff (ha : a ∈ pairs) (hb : b ∈ pairs) :
    pairLess R.ordered b a = false ↔ rank a ≤ rank b := by
  rw [← Bool.not_eq_true, pairLess_iff R (hfiled b hb) (hfiled a ha), not_lt]

/-- Two entries of one rank have one hash key, so they are one entry. -/
theorem eq_of_rank_eq (honce : (pairs.map RenderedPair.hashKey).Nodup) (ha : a ∈ pairs)
    (hb : b ∈ pairs) (h : rank a = rank b) : a = b :=
  inj_on_of_nodup_map honce ha hb (HashKey.rank_injective (Prod.ext_iff.mp h).2)

theorem sortedPairs_perm (hranged : ranged.Perm pairs) : (sortedPairs R.ordered ranged).Perm pairs :=
  (perm_insertionSort _ _).trans hranged

include hfiled in
/-- `SortedPairs` sorts: an insertion sort by the ranks compares the entries alike. -/
theorem pairwise_sortedPairs (hranged : ranged.Perm pairs) :
    (sortedPairs R.ordered ranged).Pairwise fun a b => pairLess R.ordered b a = false := by
  have htotal : Std.Total fun a b : RenderedPair => rank a ≤ rank b := ⟨fun _ _ => le_total _ _⟩
  have htrans : IsTrans RenderedPair fun a b => rank a ≤ rank b := ⟨fun _ _ _ => le_trans⟩
  have hmap := map_insertionSort (fun a b => pairLess R.ordered b a = false)
    (fun a b => rank a ≤ rank b) id ranged
    fun a ha b hb => pairLess_eq_false_iff hfiled (hranged.subset ha) (hranged.subset hb)
  rw [map_id, map_id] at hmap
  have hsorted := pairwise_insertionSort (fun a b => rank a ≤ rank b) ranged
  rw [← hmap] at hsorted
  refine hsorted.imp_of_mem fun ha hb hle => ?_
  have hsame := sortedPairs_perm (R := R) hranged
  exact (pairLess_eq_false_iff hfiled (hsame.subset ha) (hsame.subset hb)).mpr hle

include hfiled in
/-- There is one sorted list of the entries, the one that `SortedPairs` returns. -/
theorem eq_sortedPairs (honce : (pairs.map RenderedPair.hashKey).Nodup) {sorted : List RenderedPair}
    (hsame : sorted.Perm pairs)
    (hsorted : sorted.Pairwise fun a b => pairLess R.ordered b a = false) :
    sorted = sortedPairs R.ordered pairs := by
  have hperm := sortedPairs_perm (R := R) (Perm.refl pairs)
  refine (hsame.trans hperm.symm).eq_of_pairwise (fun a b ha hb hab hba => ?_) hsorted
    (pairwise_sortedPairs hfiled (.refl _))
  have ha := hsame.subset ha
  have hb := hperm.subset hb
  exact eq_of_rank_eq honce ha hb (le_antisymm ((pairLess_eq_false_iff hfiled ha hb).mp hab)
    ((pairLess_eq_false_iff hfiled hb ha).mp hba))

end Filed

/-- The comparison of the entries of a hash is a strict total order.  So there is one sorted list of
them, whatever the sort does, and however the map is ranged over, everything that lists the hash lists
the entries of that list in its order. -/
theorem sortedPairs_one_order (P : Primitives) (R : Rendering) {pairs : List RenderedPair}
    (hfiled : ∀ pair ∈ pairs, pair.keyObj.hashKey P = some pair.hashKey)
    (honce : (pairs.map RenderedPair.hashKey).Nodup) :
    (∀ a ∈ pairs, pairLess R.ordered a a = false) ∧
    (∀ a ∈ pairs, ∀ b ∈ pairs, ∀ c ∈ pairs, pairLess R.ordered a b = true →
      pairLess R.ordered b c = true → pairLess R.ordered a c = true) ∧
    (∀ a ∈ pairs, ∀ b ∈ pairs, a ≠ b → pairLess R.ordered a b = !pairLess R.ordered b a) ∧
    (∀ sorted : List RenderedPair, sorted.Perm pairs →
      sorted.Pairwise (fun a b => pairLess R.ordered b a = false) →
      sorted = sortedPairs R.ordered pairs) ∧
    ∀ ranged : List RenderedPair, ranged.Perm pairs →
      keys R.ordered ranged = (sortedPairs R.ordered pairs).map (·.keyObj) ∧
      values R.ordered ranged = (sortedPairs R.ordered pairs).map (·.value) ∧
      entries R.ordered ranged = (sortedPairs R.ordered pairs).map (fun e => (e.keyObj, e.value)) ∧
      newIterator R.ordered ranged = ((sortedPairs R.ordered pairs).map (·.keyObj),
        (sortedPairs R.ordered pairs).map (·.value)) ∧
      inspectHash R.ordered ranged = text "\x7b" ++ join (text ", ")
        ((sortedPairs R.ordered pairs).map fun e => e.key ++ text ": " ++ e.value) ++ text "\x7d" := by
  -- the comparison is that of ranks, which tell the entries apart
  have hless {a b : RenderedPair} (ha : a ∈ pairs) (hb : b ∈ pairs) :
      pairLess R.ordered a b = true ↔ rank a < rank b := pairLess_iff R (hfiled a ha) (hfiled b hb)
  have hnot {a b : RenderedPair} (ha : a ∈ pairs) (hb : b ∈ pairs) :
      pairLess R.ordered b a = false ↔ rank a ≤ rank b := pairLess_eq_false_iff hfiled ha hb
  refine ⟨fun a ha => (hnot ha ha).mpr le_rfl, fun a ha b hb c hc hab hbc => ?_,
    fun a ha b hb hne => ?_, fun sorted => eq_sortedPairs hfiled honce, fun ranged hranged => ?_⟩
  · exact (hless ha hc).mpr (((hless ha hb).mp hab).trans ((hless hb hc).mp hbc))
  · rcases lt_trichotomy (rank a) (rank b) with h | h | h
    · rw [(hless ha hb).mpr h, (hnot ha hb).mpr h.le, Bool.not_false]
    · exact absurd (eq_of_rank_eq honce ha hb h) hne
    · rw [(hless hb ha).mpr h, (hnot hb ha).mpr h.le, Bool.not_true]
  -- each of the lists is made of the one sorted list
  · have hone := eq_sortedPairs hfiled honce (sortedPairs_perm (R := R) hranged)
      (pairwise_sortedPairs hfiled hranged)
    simp only [keys, values, entries, newIterator, inspectHash, hone, and_self]

/-- A hash with keys of every kind, a NaN and both zeros among them. -/
def mixedKeys : List RenderedPair :=
  [Obj.string (text "b"), .float 0, .boolean true, .integer 10, .float 0x7FF8000000000000,
    .bytes [1] none, .integer (-2), .float 0x8000000000000000].filterMap fun key =>
      (key.hashKey Security.copying).map fun hashKey => ⟨hashKey, key, key.type, text "1"⟩

theorem sortedPairs_one_order_mixedKeys :
    let R : Rendering := ⟨fun _ => [], fun _ _ => false, id⟩
    keys R.ordered mixedKeys.reverse =
      [.boolean true, .bytes [1] none, .float 0x8000000000000000, .float 0,
        .float 0x7FF8000000000000, .integer (-2), .integer 10, .string (text "b")] ∧
    inspectHash R.ordered mixedKeys.reverse = text ("\x7bBOOLEAN: 1, BYTES: 1, FLOAT: 1, " ++
      "FLOAT: 1, FLOAT: 1, INTEGER: 1, INTEGER: 1, STRING: 1\x7d") := by
  intro R
  have hfiled : ∀ pair ∈ mixedKeys, pair.keyObj.hashKey Security.copying = some pair.hashKey := by
    decide +kernel
  obtain ⟨hkeys, -, -, -, hprint⟩ := (sortedPairs_one_order Security.copying R hfiled
    (by decide +kernel)).2.2.2.2 mixedKeys.reverse (reverse_perm _)
  rw [hkeys, hprint]
  decide +kernel

end Mutant.Object
