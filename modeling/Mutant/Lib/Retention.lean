import Mathlib.Data.List.DropRight
import Mathlib.Data.List.Nodup

/-!
# Keeping the last few

A log that is cut from the front whenever it grows past a bound keeps the last entries of its whole
history, and nothing else.

* `settle_eq`, `rtake_rtake_concat`: cutting, once and again;
* `kept_concat_iff`: what is kept.
-/

namespace Retention

open List

variable {α : Type}

/-- Entries are dropped from the front while there are more than `bound`: the dropped ones, and those
that are kept. -/
def settle (bound : Nat) : List α → List α × List α
  | [] => ([], [])
  | x :: l => if bound < (x :: l).length then (settle bound l).map (x :: ·) id else ([], x :: l)

/-- Cutting keeps the last `bound` entries, and hands back the others. -/
theorem settle_eq (bound : Nat) (l : List α) : settle bound l = (l.rdrop bound, l.rtake bound) := by
  induction l with
  | nil => simp [settle]
  | cons x l ih =>
    rw [settle, rdrop, rtake, length_cons]
    split_ifs with h
    · have hlen : l.length + 1 - bound = (l.length - bound) + 1 := by omega
      rw [ih, hlen]
      rfl
    · have hlen : l.length + 1 - bound = 0 := by omega
      rw [hlen]
      rfl

theorem rdrop_append_rtake (l : List α) (bound : Nat) : l.rdrop bound ++ l.rtake bound = l :=
  take_append_drop _ l

/-- Cutting what was kept so far with one more entry is cutting the whole history with it. -/
theorem rtake_rtake_concat (l : List α) (bound : Nat) (x : α) :
    (l.rtake bound ++ [x]).rtake bound = (l ++ [x]).rtake bound := by
  cases bound with
  | zero => simp
  | succ n =>
    rw [rtake_concat_succ, rtake_concat_succ, rtake, rtake, drop_drop, length_drop]
    congr 2
    omega

variable {l : List α} {bound : Nat}

theorem mem_rtake_concat (hbd : 0 < bound) (x : α) : x ∈ (l ++ [x]).rtake bound := by
  obtain ⟨n, rfl⟩ := Nat.exists_eq_succ_of_ne_zero hbd.ne'
  rw [rtake_concat_succ]
  exact mem_append_right _ mem_cons_self

variable {x : α}

theorem mem_of_mem_rtake (h : x ∈ l.rtake bound) : x ∈ l :=
  mem_of_mem_drop h

theorem nodup_rtake_concat (hl : (l ++ [x]).Nodup) (bound : Nat) : (l.rtake bound ++ [x]).Nodup :=
  hl.sublist ((drop_sublist _ _).append (Sublist.refl [x]))

/-- An entry of the history with one more is kept when it was kept before and is not dropped now. -/
theorem mem_rtake_concat_iff {y : α} (hl : (l ++ [x]).Nodup) (hy : y ∈ l) :
    y ∈ (l ++ [x]).rtake bound ↔ y ∈ l.rtake bound ∧ y ∉ (l.rtake bound ++ [x]).rdrop bound := by
  have hspl := rdrop_append_rtake (l.rtake bound ++ [x]) bound
  have hdisjoint := (nodup_append.mp (hspl.symm ▸ nodup_rtake_concat hl bound)).2.2
  have hne : y ≠ x := (nodup_append.mp hl).2.2 y hy x mem_cons_self
  rw [← rtake_rtake_concat]
  constructor
  · intro h
    refine ⟨?_, fun hdr => hdisjoint y hdr y h rfl⟩
    obtain hkept | hx := mem_append.mp (mem_of_mem_rtake h)
    · exact hkept
    · exact absurd (mem_singleton.mp hx) hne
  · rintro ⟨h, hdr⟩
    have hmem : y ∈ l.rtake bound ++ [x] := mem_append_left _ h
    rw [← hspl, mem_append] at hmem
    exact hmem.resolve_left hdr

theorem mem_of_mem_rdrop (h : x ∈ l.rdrop bound) : x ∈ l :=
  mem_of_mem_take h

/-- What is dropped with the newest entry is an older one. -/
theorem mem_of_mem_rdrop_concat (hbd : 0 < bound) {y : α}
    (h : y ∈ (l ++ [x]).rdrop bound) : y ∈ l := by
  obtain ⟨n, rfl⟩ := Nat.exists_eq_succ_of_ne_zero hbd.ne'
  rw [rdrop_concat_succ] at h
  exact mem_of_mem_rdrop h

/-- With one more entry: whatever has an entry has it kept, when it was so before and the entry is not
dropped now. -/
theorem kept_concat_iff (hbd : 0 < bound)
    (hl : (l ++ [x]).Nodup) (y : α) : (y ∈ l ++ [x] → y ∈ (l ++ [x]).rtake bound) ↔
      (y ∈ l → y ∈ l.rtake bound) ∧ y ∉ (l.rtake bound ++ [x]).rdrop bound := by
  by_cases hy : y ∈ l
  · have hmem : y ∈ l ++ [x] := mem_append_left _ hy
    simp only [hmem, hy, true_imp_iff, mem_rtake_concat_iff hl hy]
  · have hkept : y ∉ (l.rtake bound ++ [x]).rdrop bound := by
      intro h
      exact hy (mem_of_mem_rtake (mem_of_mem_rdrop_concat hbd h))
    refine ⟨fun _ => ⟨fun hl => absurd hl hy, hkept⟩, fun _ hmem => ?_⟩
    obtain rfl := mem_singleton.mp ((mem_append.mp hmem).resolve_left hy)
    exact mem_rtake_concat hbd y

end Retention
