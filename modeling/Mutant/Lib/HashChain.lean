import Mathlib.Data.List.Chain
import Mathlib.Data.List.Infix

/-!
# Hash chains

Entries that name the hash of the entry before them.  Where no two entries have one hash, the hash
of the last entry decides every entry before it: of two chains with the same last hash, one is the
end of the other.

* `eq_of_last`: the last hash decides.
-/

namespace HashChain

open List

variable {α η : Type*} (prev hash : α → η)

/-- Every entry names the hash of the one before it; the oldest comes first. -/
def Linked (l : List α) : Prop := l.IsChain fun a b => prev b = hash a

variable {prev hash}

variable {l m : List α}

theorem linked_append : Linked prev hash (l ++ m) ↔
    Linked prev hash l ∧ Linked prev hash m ∧ ∀ a ∈ l.getLast?, ∀ b ∈ m.head?, prev b = hash a :=
  isChain_append

/-- The comparison from the newest entry on. -/
theorem front_or_front (hl : l.IsChain fun a b => prev a = hash b)
    (hm : m.IsChain fun a b => prev a = hash b) (hinj : ∀ a ∈ l, ∀ b ∈ m, hash a = hash b → a = b)
    (hhead : l.head?.map hash = m.head?.map hash) : l <+: m ∨ m <+: l := by
  induction l generalizing m with
  | nil => exact .inl nil_prefix
  | cons a l ih =>
    cases m with
    | nil => exact .inr nil_prefix
    | cons b m =>
      have hab : a = b := hinj a mem_cons_self b mem_cons_self (Option.some.inj hhead)
      subst hab
      have hrest : l <+: m ∨ m <+: l := by
        cases l with
        | nil => exact .inl nil_prefix
        | cons c l =>
          cases m with
          | nil => exact .inr nil_prefix
          | cons d m =>
            -- The newest entry names both of the entries before it.
            rw [isChain_cons_cons] at hl hm
            refine ih hl.2 hm.2 (fun x hx y hy => hinj x (mem_cons_of_mem _ hx) y
              (mem_cons_of_mem _ hy)) ?_
            exact congrArg some (hl.1.symm.trans hm.1)
      exact hrest.imp (fun h => (prefix_cons_inj a).mpr h)
        fun h => (prefix_cons_inj a).mpr h

/-- Of two chains with the same last hash, one is the end of the other. -/
theorem rest_or_rest (hl : Linked prev hash l) (hm : Linked prev hash m)
    (hinj : ∀ a ∈ l, ∀ b ∈ m, hash a = hash b → a = b)
    (hlast : l.getLast?.map hash = m.getLast?.map hash) : l <:+ m ∨ m <:+ l := by
  have h : l.reverse <+: m.reverse ∨ m.reverse <+: l.reverse := by
    refine front_or_front (isChain_reverse.mpr hl) (isChain_reverse.mpr hm) ?_ ?_
    · intro a ha b hb
      exact hinj a (mem_reverse.mp ha) b (mem_reverse.mp hb)
    · rwa [head?_reverse, head?_reverse]
  rwa [ reverse_prefix, reverse_prefix] at h

/-- A chain that starts from a root, which is no entry's hash, is no proper end of another. -/
theorem eq_of_suffix {root : η} (hm : Linked prev hash m)
    (hroot : ∀ a ∈ m, hash a ≠ root) (hl : ∀ a ∈ l.head?, prev a = root) (hne : l ≠ [])
    (h : l <:+ m) : l = m := by
  obtain ⟨front, rfl⟩ := h
  cases hlast : front.getLast? with
  | none => rw [getLast?_eq_none_iff.mp hlast, nil_append]
  | some b =>
    obtain ⟨a, hhead⟩ : ∃ a, l.head? = some a := by
      cases l with
      | nil => exact absurd rfl hne
      | cons a l => exact ⟨a, rfl⟩
    have hprev : prev a = hash b := (linked_append.mp hm).2.2 b hlast a hhead
    have hmem : b ∈ front ++ l := mem_append_left _ (mem_of_getLast? hlast)
    exact absurd (hprev.symm.trans (hl a hhead)) (hroot b hmem)

/-- Two chains from one root with the same last hash are one chain. -/
theorem eq_of_last {root : η} (hl : Linked prev hash l) (hm : Linked prev hash m)
    (hinj : ∀ a ∈ l, ∀ b ∈ m, hash a = hash b → a = b)
    (hroot : ∀ a ∈ l ++ m, hash a ≠ root) (hlroot : ∀ a ∈ l.head?, prev a = root)
    (hmroot : ∀ a ∈ m.head?, prev a = root) (hlne : l ≠ []) (hmne : m ≠ [])
    (hlast : l.getLast?.map hash = m.getLast?.map hash) : l = m := by
  rw [forall_mem_append] at hroot
  rcases rest_or_rest hl hm hinj hlast with h | h
  · exact eq_of_suffix hm hroot.2 hlroot hlne h
  · exact (eq_of_suffix hl hroot.1 hmroot hmne h).symm

end HashChain
