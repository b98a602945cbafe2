import Mathlib.Tactic.Common

/-!
# Maps listed by their keys

A map has no order, so it is kept as the list of its entries with the keys increasing: one list for
each map.

* `get?_insert`: a map with an entry more holds its value, and what the map held elsewhere.
* `increasing_insert`: the keys still increase.
* `eq_of_get?_eq`: maps with the same values are one list.
-/

namespace KeyMap

open List

variable {κ ν : Type*}

/-! ### Values -/

section

variable [DecidableEq κ] {key : κ}

/-- The value of a key. -/
def get? (key : κ) (entries : List (κ × ν)) : Option ν :=
  (entries.find? fun entry => entry.1 = key).map Prod.snd

theorem get?_cons (key : κ) (e : κ × ν) (entries : List (κ × ν)) :
    get? key (e :: entries) = if e.1 = key then some e.2 else get? key entries := by
  by_cases h : e.1 = key <;> simp [get?, h]

theorem get?_filter {k : κ} (h : k ≠ key) (entries : List (κ × ν)) :
    get? k (entries.filter fun e => e.1 ≠ key) = get? k entries := by
  induction entries with
  | nil => rfl
  | cons e entries ih =>
    by_cases hent : e.1 = key
    · rw [filter_cons_of_neg (by simp [hent]), get?_cons, if_neg (hent ▸ h.symm), ih]
    · rw [filter_cons_of_pos (by simp [hent]), get?_cons, get?_cons, ih]

theorem get?_filter_self (key : κ) (entries : List (κ × ν)) :
    get? key (entries.filter fun e => e.1 ≠ key) = none := by
  rw [get?, find?_eq_none.mpr ?_]
  · rfl
  · intro e hent
    simpa using (mem_filter.mp hent).2

end

/-! ### Keys that increase -/

variable [LT κ]

/-- The keys increase. -/
def Increasing (entries : List (κ × ν)) : Prop := (entries.map Prod.fst).Pairwise (· < ·)

instance [DecidableLT κ] (entries : List (κ × ν)) : Decidable (Increasing entries) :=
  inferInstanceAs (Decidable ((entries.map Prod.fst).Pairwise (· < ·)))

/-- The map with an entry for a key. -/
def insert [DecidableLT κ] (key : κ) (value : ν) : List (κ × ν) → List (κ × ν)
  | [] => [(key, value)]
  | entry :: entries =>
    if key < entry.1 then (key, value) :: entry :: entries
    else if entry.1 < key then entry :: insert key value entries
    else (key, value) :: entries

variable {entries : List (κ × ν)}

theorem increasing_cons {entry : κ × ν} :
    Increasing (entry :: entries) ↔ (∀ e ∈ entries, entry.1 < e.1) ∧ Increasing entries := by
  rw [Increasing, map_cons, pairwise_cons, forall_mem_map]
  rfl

variable {key : κ}

/-- An insertion brings in one entry. -/
theorem mem_of_mem_insert [DecidableLT κ] {v : ν} {e : κ × ν}
    (h : e ∈ insert key v entries) : e = (key, v) ∨ e ∈ entries := by
  fun_induction insert key v entries with
  | case1 => exact .inl (mem_singleton.mp h)
  | case2 first entries hlt => exact mem_cons.mp h
  | case3 first entries hlt hgt ih =>
    rcases mem_cons.mp h with rfl | h
    · exact .inr mem_cons_self
    · exact (ih h).imp_right (mem_cons_of_mem _)
  | case4 first entries hlt hgt => exact (mem_cons.mp h).imp_right (mem_cons_of_mem _)

theorem Increasing.filter_keys (h : Increasing entries) (q : κ × ν → Bool) :
    Increasing (entries.filter q) :=
  h.sublist (filter_sublist.map Prod.fst)

/-- A key beyond all others comes last. -/
theorem insert_of_lt [DecidableLT κ] [Std.Asymm fun a b : κ => a < b] {v : ν}
    (h : ∀ e ∈ entries, e.1 < key) : insert key v entries = entries ++ [(key, v)] := by
  induction entries with
  | nil => rfl
  | cons entry entries ih =>
    have hlt := h entry mem_cons_self
    rw [insert, if_neg (Std.Asymm.asymm _ _ hlt), if_pos hlt, ih (forall_mem_cons.mp h).2]
    rfl

section

variable [DecidableLT κ] [Std.Trichotomous fun a b : κ => a < b]
  [Trans (fun a b : κ => a < b) (fun a b : κ => a < b) (fun a b : κ => a < b)]

/-- An insertion keeps the keys in order. -/
theorem increasing_insert {v : ν} (h : Increasing entries) : Increasing (insert key v entries) := by
  fun_induction insert key v entries with
  | case1 => exact pairwise_singleton _ _
  | case2 entry entries hlt =>
    rw [increasing_cons, forall_mem_cons]
    exact ⟨⟨hlt, fun e he => Trans.trans hlt ((increasing_cons.mp h).1 e he)⟩, h⟩
  | case3 entry entries hlt hgt ih =>
    obtain ⟨hfst, hrest⟩ := increasing_cons.mp h
    refine increasing_cons.mpr ⟨fun e he => ?_, ih hrest⟩
    rcases mem_of_mem_insert he with rfl | he
    · exact hgt
    · exact hfst e he
  | case4 entry entries hlt hgt =>
    obtain rfl : key = entry.1 := Std.Trichotomous.trichotomous _ _ hlt hgt
    exact increasing_cons.mpr (increasing_cons.mp h)

end

/-! ### Values and insertion -/

variable [DecidableEq κ]

/-- What a map holds beside a key does not depend on its value. -/
theorem filter_insert [DecidableLT κ] [Std.Trichotomous fun a b : κ => a < b]
    (key : κ) (v : ν) (entries : List (κ × ν)) :
    ((insert key v entries).filter fun e => e.1 ≠ key) =
      entries.filter fun e => e.1 ≠ key := by
  fun_induction insert key v entries with
  | case1 | case2 => rw [filter_cons_of_neg (by simp)]
  | case3 e entries hlt hgt ih => rw [filter_cons, filter_cons, ih]
  | case4 e entries hlt hgt =>
    obtain rfl : key = e.1 := Std.Trichotomous.trichotomous _ _ hlt hgt
    rw [filter_cons_of_neg (by simp), filter_cons_of_neg (by simp)]

variable [Std.Asymm fun a b : κ => a < b]

/-- What is found after an insertion. -/
theorem get?_insert [DecidableLT κ] [Std.Trichotomous fun a b : κ => a < b]
    (key : κ) (v : ν) (entries : List (κ × ν)) (k : κ) :
    get? k (insert key v entries) = if key = k then some v else get? k entries := by
  fun_induction insert key v entries with
  | case1 | case2 => rw [get?_cons]
  | case3 e entries hlt hgt ih =>
    rw [get?_cons, ih, get?_cons]
    split_ifs with hent hkey <;> try rfl
    rw [hent, hkey] at hgt
    exact (Std.Asymm.asymm _ _ hgt hgt).elim
  | case4 e entries hlt hgt =>
    obtain rfl : key = e.1 := Std.Trichotomous.trichotomous _ _ hlt hgt
    rw [get?_cons, get?_cons]
    split_ifs <;> rfl

theorem get?_eq_none_of_lt (h : ∀ e ∈ entries, key < e.1) : get? key entries = none := by
  induction entries with
  | nil => rfl
  | cons entry entries ih =>
    rw [forall_mem_cons] at h
    rw [get?_cons, if_neg ?_, ih h.2]
    rintro rfl
    exact Std.Asymm.asymm _ _ h.1 h.1

variable [Trans (fun a b : κ => a < b) (fun a b : κ => a < b) (fun a b : κ => a < b)]

theorem not_lt_of_get? {entry : κ × ν} (hents : Increasing (entry :: entries))
    (h : get? key (entry :: entries) ≠ none) : ¬key < entry.1 := fun hlt =>
  h (get?_eq_none_of_lt (forall_mem_cons.mpr
    ⟨hlt, fun e he => Trans.trans hlt ((increasing_cons.mp hents).1 e he)⟩))

/-- Maps with the same values are one list. -/
theorem eq_of_get?_eq [Std.Trichotomous fun a b : κ => a < b]
    {l m : List (κ × ν)} (hl : Increasing l) (hm : Increasing m)
    (h : ∀ key, get? key l = get? key m) : l = m := by
  induction l generalizing m with
  | nil =>
    cases m with
    | nil => rfl
    | cons b m =>
      have := h b.1
      rw [get?_cons, if_pos rfl] at this
      cases this
  | cons a l ih =>
    obtain ⟨hfst, hrest⟩ := increasing_cons.mp hl
    cases m with
    | nil =>
      have := h a.1
      rw [get?_cons, if_pos rfl] at this
      cases this
    | cons b m =>
      obtain ⟨hfst', hrest'⟩ := increasing_cons.mp hm
      -- The smaller of the two first keys would be missing on the other side.
      have hkey : a.1 = b.1 := Std.Trichotomous.trichotomous _ _
        (not_lt_of_get? hm (by simp [← h, get?_cons])) (not_lt_of_get? hl (by simp [h, get?_cons]))
      have hval := h a.1
      rw [get?_cons, get?_cons, if_pos rfl, if_pos hkey.symm] at hval
      have hab : a = b := Prod.ext hkey (Option.some.inj hval)
      subst hab
      rw [ih hrest hrest' fun key => ?_]
      by_cases hkey : a.1 = key
      · subst hkey
        rw [get?_eq_none_of_lt hfst, get?_eq_none_of_lt hfst']
      · have := h key
        rwa [get?_cons, get?_cons, if_neg hkey, if_neg hkey] at this

end KeyMap
