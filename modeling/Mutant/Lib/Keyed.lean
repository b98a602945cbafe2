import Mathlib.Data.List.Nodup

/-!
# Lists whose elements have ids
-/

namespace List

variable {α : Type*} {key : α → Nat}

/-- Looking an element up by its id. -/
theorem find?_of_nodup {l : List α} (h : (l.map key).Nodup) {a : α} (ha : a ∈ l) :
    l.find? (fun x => key x = key a) = some a := by
  induction l with
  | nil => cases ha
  | cons x l ih =>
    rw [map_cons, nodup_cons] at h
    rw [find?_cons]
    obtain rfl | ha := mem_cons.mp ha
    · simp only [decide_true]
    · have hne : key x ≠ key a := fun heq => h.1 (heq ▸ mem_map_of_mem ha)
      simp only [hne]
      exact ih h.2 ha

/-- Looking an element up by its id where some have been left out. -/
theorem find?_filter_of_nodup {l : List α} (h : (l.map key).Nodup) (p : α → Bool) (id : Nat) :
    (l.filter p).find? (fun x => key x = id) = (l.find? fun x => key x = id).filter p := by
  induction l with
  | nil => rfl
  | cons x l ih =>
    rw [map_cons, nodup_cons] at h
    by_cases hid : key x = id
    · have hrest : l.find? (fun x => key x = id) = none := by
        rw [find?_eq_none]
        intro y hy hkey
        exact h.1 (hid.trans (of_decide_eq_true hkey).symm ▸ mem_map_of_mem hy)
      rw [find?_cons_of_pos (by simpa using hid), filter_cons, Option.filter_some]
      split_ifs with hp
      · rw [find?_cons_of_pos (by simpa using hid)]
      · rw [ih h.2, hrest]
        rfl
    · rw [find?_cons_of_neg (by simpa using hid), filter_cons]
      split_ifs with hp
      · rw [find?_cons_of_neg (by simpa using hid), ih h.2]
      · exact ih h.2

end List
