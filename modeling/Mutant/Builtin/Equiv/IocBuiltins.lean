import Mutant.Builtin.IocBuiltins

/-!
# Refanging undoes defanging

What defanging writes starts with an `h` or an opening bracket, and no marker has one of these after
its first byte.  So a marker that the refanging scan finds is one that defanging wrote, or stood in
the text before.

* `word?_defang`: the markers of a defanged text;
* `refang_defang`: refanging gives the text back.
-/

namespace Mutant.Builtin

open List
open Mutant.Security (Bytes text)
open Replacer (word? replace_of_none replace_of_word replace_char)

variable {s t m : Bytes} {b : UInt8}

/-! ### Defanging -/

/-- What a byte is defanged to where no `http` starts. -/
def defangByte (b : UInt8) : Bytes :=
  if b = 0x2E then text "[.]" else if b = 0x40 then text "[at]" else [b]

/-- Defanging rewrites the scheme, and then the separators byte by byte. -/
theorem defang_eq (s : Bytes) :
    defang s = (Replacer.replace [(text "http", text "hxxp")] s).flatMap defangByte := by
  have hdot := replace_char 0x2E (text "[.]")
  have hat := replace_char 0x40 (text "[at]")
  refine (hat _).trans ?_
  rw [show Replacer.replace [(text ".", text "[.]")] _ = _ from hdot _, flatMap_assoc]
  refine congrArg (flatMap · _) (funext fun b => ?_)
  unfold defangByte
  split_ifs with hb hb'
  · rfl
  · simp [hb']
  · simp [hb']

theorem defang_http (s : Bytes) : defang (text "http" ++ s) = text "hxxp" ++ defang s := by
  rw [defang_eq, defang_eq, replace_of_word (by decide) (by rfl), flatMap_append]
  rfl

theorem defang_cons (h : ¬ text "http" <+: b :: s) :
    defang (b :: s) = defangByte b ++ defang s := by
  rw [defang_eq, defang_eq, replace_of_none, flatMap_cons]
  simpa [word?] using h

/-- The texts that defanging keeps as they are, at the front of what it writes. -/
theorem prefix_of_prefix_defang (hm : ∀ b ∈ m, b ≠ 0x68 ∧ b ≠ 0x5B) (h : m <+: defang s) :
    m <+: s := by
  induction m generalizing s with
  | nil => exact nil_prefix
  | cons c m ih =>
    obtain ⟨⟨hh, hbracket⟩, hm⟩ := forall_mem_cons.mp hm
    cases s with
    | nil => exact h
    | cons b s =>
      by_cases hhttp : text "http" <+: b :: s
      · obtain ⟨rest, hrest⟩ := hhttp
        rw [← hrest, defang_http] at h
        exact absurd (cons_prefix_cons.mp h).1 hh
      · rw [defang_cons hhttp, defangByte] at h
        split_ifs at h
        · exact absurd (cons_prefix_cons.mp h).1 hbracket
        · exact absurd (cons_prefix_cons.mp h).1 hbracket
        · obtain ⟨rfl, hrest⟩ := cons_prefix_cons.mp h
          exact cons_prefix_cons.mpr ⟨rfl, ih hm hrest⟩

/-! ### Refanging -/

/-- The text has none of the markers. -/
def Unmarked (s : Bytes) : Prop := ∀ pair ∈ refangPairs, ¬ pair.1 <:+: s

theorem Unmarked.of_suffix (h : Unmarked s) (ht : t <:+ s) : Unmarked t :=
  fun pair hpair hin => h pair hpair (hin.trans ht.isInfix)

/-- After its first byte no marker has what starts a piece that defanging wrote. -/
theorem tail_of_marker : ∀ pair ∈ refangPairs, ∀ b ∈ pair.1.tail, b ≠ 0x68 ∧ b ≠ 0x5B := by
  decide +kernel

theorem marker_ne_nil : ∀ pair ∈ refangPairs, pair.1 ≠ [] := by
  decide +kernel

/-- No marker starts at a byte that defanging kept. -/
theorem word?_defang (h : Unmarked (b :: s)) : word? refangPairs (b :: defang s) = none := by
  rw [word?, find?_eq_none]
  intro pair hpair hsts
  obtain ⟨c, m, hm⟩ := exists_cons_of_ne_nil (marker_ne_nil pair hpair)
  have htail := tail_of_marker pair hpair
  rw [ isPrefixOf_iff_prefix, hm, cons_prefix_cons] at hsts
  rw [hm] at htail
  refine h pair hpair (IsPrefix.isInfix ?_)
  rw [hm]
  exact cons_prefix_cons.mpr ⟨hsts.1, prefix_of_prefix_defang htail hsts.2⟩

/-- Refanging restores the scheme. -/
theorem refang_hxxp (s : Bytes) : refang (text "hxxp" ++ s) = text "http" ++ refang s := by
  cases s with
  | nil => rfl
  | cons b s =>
    by_cases hb : b = 0x73
    · subst hb
      have hs : refang (0x73 :: s) = 0x73 :: refang s := replace_of_none rfl
      have hhttps : refang (text "hxxps" ++ s) = text "https" ++ refang s :=
        replace_of_word (by decide) rfl
      rw [hs]
      exact hhttps
    · have hnot : ¬ (text "hxxps").isPrefixOf (text "hxxp" ++ b :: s) = true := by
        rw [ isPrefixOf_iff_prefix]
        intro hsts
        have hs : [0x73] <+: b :: s := (prefix_append_right_inj (text "hxxp")).mp hsts
        exact hb (cons_prefix_cons.mp hs).1.symm
      have hfr : (refangPairs.take 5).find? (·.1.isPrefixOf (text "hxxp" ++ b :: s)) = none := rfl
      refine replace_of_word (by decide) ?_
      rw [word?, ← take_append_drop 5 refangPairs, find?_append, hfr, Option.none_or]
      exact (find?_cons_of_neg (l := refangPairs.drop 6) hnot).trans
        (find?_cons_of_pos (l := refangPairs.drop 7) rfl)

/-- Refanging undoes defanging on every text without markers. -/
theorem refang_defang (s : Bytes) (h : Unmarked s) : refang (defang s) = s := by
  induction hn : s.length using Nat.strong_induction_on generalizing s with
  | _ n ih =>
    cases s with
    | nil => rfl
    | cons b s =>
      by_cases hhttp : text "http" <+: b :: s
      · obtain ⟨rest, hrest⟩ := hhttp
        rw [← hrest] at h hn ⊢
        rw [defang_http, refang_hxxp, ih _ ?_ rest (h.of_suffix (suffix_append _ _)) rfl]
        rw [← hn, length_append]
        exact Nat.lt_add_of_pos_left (by decide)
      · have hrest : refang (defang s) = s :=
          ih _ (hn ▸ Nat.lt_succ_self _) s (h.of_suffix (suffix_cons _ _)) rfl
        rw [defang_cons hhttp, defangByte]
        split_ifs with hdot hat
        · exact (replace_of_word (by decide) rfl).trans (by rw [hdot]; exact congrArg _ hrest)
        · exact (replace_of_word (by decide) rfl).trans (by rw [hat]; exact congrArg _ hrest)
        · exact (replace_of_none (word?_defang h)).trans (congrArg _ hrest)

theorem refang_defang_mailbox : refang (defang (text "https://a.b/?c@d")) = text "https://a.b/?c@d" :=
  refang_defang _ (by unfold Unmarked; decide +kernel)

end Mutant.Builtin
