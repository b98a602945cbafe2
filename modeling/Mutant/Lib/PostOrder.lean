import Mathlib.Logic.Relation
import Mathlib.Data.List.Chain
import Mathlib.Data.List.Nodup

/-!
# Post-ordered lists

A list is post-ordered for a relation when everything an entry points at stands before it.  Such a
list is closed under the relation, and when its entries are distinct the relation has no cycle
through any of them.

* `PostOrdered.snoc`: how such a list grows;
* `PostOrdered.mem_of_reaches`, `PostOrdered.not_onCycle`: what it excludes.
-/

namespace PostOrder

open List

variable {α : Type*} {R : α → α → Prop}

/-- Every entry comes after all it points at. -/
def PostOrdered (R : α → α → Prop) (l : List α) : Prop :=
  ∀ before a after, l = before ++ a :: after → ∀ b, R a b → b ∈ before

/-- `a` lies on a cycle of `R`. -/
def OnCycle (R : α → α → Prop) (a : α) : Prop := Relation.TransGen R a a

theorem postOrdered_nil : PostOrdered R [] := by
  intro pre a after h
  cases pre <;> simp at h

section

variable {l : List α} (h : PostOrdered R l)

include h

/-- An entry may be added last once all it points at is there. -/
theorem PostOrdered.snoc {a : α} (ha : ∀ b, R a b → b ∈ l) : PostOrdered R (l ++ [a]) := by
  intro pre c after hspl b hcb
  rcases eq_nil_or_concat after with rfl | ⟨front, last, rfl⟩
  · -- `c` is the new entry
    obtain ⟨rfl, hc⟩ := append_inj' hspl rfl
    obtain rfl : a = c := by simpa using hc
    exact ha b hcb
  · have hspl' : l ++ [a] = (pre ++ c :: front) ++ [last] := by
      rw [hspl]; simp
    obtain ⟨hl, -⟩ := append_inj' hspl' rfl
    exact h pre c front hl b hcb

/-- What an entry leads to stands before that entry. -/
theorem PostOrdered.mem_before {before after : List α} {a b : α}
    (hspl : l = before ++ a :: after) (hab : Relation.TransGen R a b) : b ∈ before := by
  induction hab with
  | single hstep => exact h _ _ _ hspl _ hstep
  | @tail c d _ hstep ih =>
    obtain ⟨front, back, rfl⟩ := append_of_mem ih
    have hd := h front c (back ++ a :: after) (by rw [hspl]; simp) d hstep
    exact mem_append_left _ hd

theorem PostOrdered.mem_of_reaches {a b : α} (ha : a ∈ l)
    (hab : Relation.ReflTransGen R a b) : b ∈ l := by
  rcases Relation.reflTransGen_iff_eq_or_transGen.mp hab with rfl | hab
  · exact ha
  · obtain ⟨pre, after, rfl⟩ := append_of_mem ha
    exact mem_append_left _ (h.mem_before rfl hab)

/-- No entry of a post-ordered list without repetitions lies on a cycle. -/
theorem PostOrdered.not_onCycle {a : α} (hnd : l.Nodup) (ha : a ∈ l) : ¬ OnCycle R a := by
  intro hcycle
  obtain ⟨pre, after, rfl⟩ := append_of_mem ha
  have hmem := h.mem_before rfl hcycle
  exact (nodup_append'.mp hnd).2.2 hmem mem_cons_self

end

/-- A chain that returns to one of its members closes a cycle through it. -/
theorem onCycle_of_isChain {front back : List α} {a : α}
    (h : List.IsChain R (front ++ a :: back ++ [a])) : OnCycle R a := by
  rw [append_assoc] at h
  have htail : IsChain R (a :: (back ++ [a])) := (isChain_append.mp h).2.1
  -- walk along the chain, remembering how it was reached
  suffices hwalk : ∀ (back : List α) (c : α), IsChain R (c :: (back ++ [a])) →
      Relation.TransGen R c a from hwalk back a htail
  intro back
  induction back with
  | nil =>
    intro c hc
    exact .single (isChain_cons_cons.mp hc).1
  | cons d back ih =>
    intro c hc
    obtain ⟨hcd, hrest⟩ := isChain_cons_cons.mp hc
    exact .head hcd (ih d hrest)

/-- The members of a chain are reached from its head. -/
theorem reaches_of_isChain {l : List α} {a b : α} (h : List.IsChain R (a :: l))
    (hb : b ∈ a :: l) : Relation.ReflTransGen R a b := by
  induction l generalizing a with
  | nil => rw [mem_singleton.mp hb]
  | cons c l ih =>
    obtain ⟨hac, hrest⟩ := isChain_cons_cons.mp h
    rcases mem_cons.mp hb with rfl | hb
    · exact .refl
    · exact .head hac (ih hrest hb)

end PostOrder
