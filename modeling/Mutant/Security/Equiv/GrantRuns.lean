import Mathlib.Data.List.Perm.Subperm
import Mutant.Lib.Result
import Mutant.Security.Equiv.RecordJson

/-!
# The run list of a grant

A grant file names its segments by runs.  The runs of an ascending list pass the checks of
`ParseGrantFile` and are expanded to that list again, and a run list that passes them is the run list
of the segments it names.

* `checkRuns_eq`, `expandRuns_eq`: a run list is checked and expanded;
* `runsIn_of_checkRuns`: what passes the check is a run list;
* `grantRuns_codec`: both directions.
-/

namespace Mutant.Security

open List Option GrantFile

variable {run : GrantRun} {segments : UInt64} {runs : List GrantRun} {f : GrantFile}
  {indices : List UInt64}

/-! ### Runs -/

theorem toNat_succ {x : UInt64} (h : x.toNat + 1 < 2 ^ 64) : (x + 1).toNat = x.toNat + 1 := by
  exact Nat.mod_eq_of_lt h

theorem runIndices_single (x : UInt64) : runIndices ⟨x, x⟩ = [x] := by
  simp [runIndices]

theorem first_mem_runIndices (run : GrantRun) : run.first ∈ runIndices run :=
  mem_map.mpr ⟨0, mem_range.mpr (Nat.succ_pos _), by rw [Nat.add_zero, UInt64.ofNat_toNat]⟩

/-- A run that takes in the index before it. -/
theorem runIndices_extend {x : UInt64} (hx : x.toNat + 1 = run.first.toNat)
    (hfwd : run.first.toNat ≤ run.last.toNat) : runIndices ⟨x, run.last⟩ = x :: runIndices run := by
  unfold runIndices
  rw [show run.last.toNat - x.toNat + 1 = run.last.toNat - run.first.toNat + 1 + 1 by omega,
    range_succ_eq_map, map_cons, List.map_map, Nat.add_zero, UInt64.ofNat_toNat, ← hx]
  refine congrArg (x :: ·) (map_congr_left fun k _ => congrArg UInt64.ofNat ?_)
  exact (Nat.succ_add_eq_add_succ ..).symm

theorem grantRunsOf_append_singleton (xs : List UInt64) (x : UInt64) : grantRunsOf (xs ++ [x]) =
      match (grantRunsOf xs).getLast? with
      | some run =>
        if run.last + 1 = x then (grantRunsOf xs).dropLast ++ [{ run with last := x }]
        else grantRunsOf xs ++ [⟨x, x⟩]
      | none => grantRunsOf xs ++ [⟨x, x⟩] := by
  rw [grantRunsOf, foldl_append]
  rfl

theorem length_runIndices (run : GrantRun) :
    (runIndices run).length = run.last.toNat - run.first.toNat + 1 := by
  rw [runIndices, length_map, length_range]

/-- What the checks of a run list need: runs that go forward, end in range and are apart. -/
structure RunsIn (segments : UInt64) (runs : List GrantRun) : Prop where
  forward : ∀ run ∈ runs, run.first.toNat ≤ run.last.toNat
  range : ∀ run ∈ runs, run.last < segments
  apart : runs.Pairwise fun a b => a.last.toNat + 1 < b.first.toNat

theorem RunsIn.cons (h : RunsIn segments runs) (hfwd : run.first.toNat ≤ run.last.toNat)
    (hrng : run.last < segments) (hgap : ∀ r ∈ runs, run.last.toNat + 1 < r.first.toNat) :
    RunsIn segments (run :: runs) :=
  ⟨forall_mem_cons.mpr ⟨hfwd, h.forward⟩, forall_mem_cons.mpr ⟨hrng, h.range⟩,
    pairwise_cons.mpr ⟨hgap, h.apart⟩⟩

theorem RunsIn.tail (h : RunsIn segments (run :: runs)) : RunsIn segments runs :=
  ⟨fun r hr => h.forward r (mem_cons_of_mem run hr),
    fun r hr => h.range r (mem_cons_of_mem run hr), (pairwise_cons.mp h.apart).2⟩

theorem uint64_run {first last : UInt64} (h : first.toNat ≤ last.toNat) :
    last - first + 1 = UInt64.ofNat (last.toNat - first.toNat + 1) := by
  have hsub : last - first = UInt64.ofNat (last.toNat - first.toNat) := by
    rw [← UInt64.toNat_inj, UInt64.toNat_sub_of_le _ _ (UInt64.le_iff_toNat_le.mpr h),
      UInt64.toNat_ofNat']
    have := last.toNat_lt
    omega
  rw [hsub, UInt64.ofNat_add]
  rfl

/-- The check of the runs counts the indices they spell. -/
theorem checkRuns_eq (h : RunsIn segments runs) (i : Nat) (pre : Option GrantRun) (counted : UInt64)
    (hbef : ∀ b ∈ pre, ∀ run ∈ runs, b.last.toNat + 1 < run.first.toNat) :
    checkRuns segments i pre counted runs =
      .ok (counted + UInt64.ofNat (runs.flatMap runIndices).length) := by
  induction runs generalizing i pre counted with
  | nil => simp [checkRuns]
  | cons run runs ih =>
    have hfwd := h.forward run mem_cons_self
    -- runs are apart, so neither overlaps nor adjoins the one before
    have hadjoins : (pre.any fun pre => run.first ≤ pre.last + 1) = false := by
      cases pre with
      | none => rfl
      | some b =>
        have hgap := hbef b rfl run mem_cons_self
        have hsucc : (b.last + 1).toNat = b.last.toNat + 1 := by
          have := run.first.toNat_lt
          exact toNat_succ (by omega)
        simp only [any_some, decide_eq_false_iff_not, UInt64.le_iff_toNat_le]
        omega
    have hnext : ∀ b ∈ some run, ∀ r ∈ runs, b.last.toNat + 1 < r.first.toNat := by
      intro b hb r hr
      obtain rfl := mem_some_iff.mp hb
      exact (pairwise_cons.mp h.apart).1 r hr
    rw [checkRuns, if_neg (by rw [UInt64.lt_iff_toNat_lt]; omega),
      if_neg (UInt64.not_le.mpr (h.range run mem_cons_self)), hadjoins,
      if_neg Bool.false_ne_true, ih h.tail _ _ _ hnext, uint64_run hfwd, UInt64.add_assoc,
      ← UInt64.ofNat_add, flatMap_cons, length_append, length_runIndices]

/-- Expanding the runs gives the indices they spell. -/
theorem expandRuns_eq {f : GrantFile} (h : RunsIn f.segments runs) (acc : List UInt64)
    (hgrant : acc.length + (runs.flatMap runIndices).length ≤ f.granted.toNat) :
    f.expandRuns acc runs = .ok (acc ++ runs.flatMap runIndices) := by
  induction runs generalizing acc with
  | nil => simp [expandRuns]
  | cons run runs ih =>
    have hfwd := h.forward run mem_cons_self
    rw [flatMap_cons, length_append, length_runIndices] at hgrant
    -- the count the code checks, without wrapping
    have hcnt : UInt64.ofNat acc.length + run.last - run.first + 1 =
        UInt64.ofNat (acc.length + (run.last.toNat - run.first.toNat + 1)) := by
      rw [UInt64.ofNat_add, ← uint64_run hfwd]
      simp only [UInt64.sub_eq_add_neg, UInt64.add_assoc]
    have hroom : ¬ f.granted < UInt64.ofNat acc.length + run.last - run.first + 1 := by
      rw [hcnt, UInt64.lt_iff_toNat_lt, UInt64.toNat_ofNat']
      omega
    have hchecks : ¬ (run.last < run.first ∨ f.segments ≤ run.last ∨
        f.granted < UInt64.ofNat acc.length + run.last - run.first + 1) := by
      rintro (hback | hrng | hmany)
      · rw [UInt64.lt_iff_toNat_lt] at hback
        omega
      · exact UInt64.not_le.mpr (h.range run mem_cons_self) hrng
      · exact hroom hmany
    rw [expandRuns, if_neg hchecks, ih h.tail _ (by
      rw [length_append, length_runIndices]
      omega), flatMap_cons, append_assoc]

/-- Runs that are apart are at most half as many as the segments, rounded up. -/
theorem RunsIn.length_le (h : RunsIn segments runs)
    (low : Nat) (hlow : ∀ run ∈ runs, low ≤ run.first.toNat) (hpos : low ≤ segments.toNat + 1) :
    low + 2 * runs.length ≤ segments.toNat + 1 := by
  induction runs generalizing low with
  | nil => simpa using hpos
  | cons run runs ih =>
    have hfst := hlow run mem_cons_self
    have hfwd := h.forward run mem_cons_self
    have hrng := UInt64.lt_iff_toNat_lt.mp (h.range run mem_cons_self)
    have hrest := ih h.tail (low + 2) (fun r hr => by
      have := (pairwise_cons.mp h.apart).1 r hr
      omega) (by omega)
    rw [length_cons]
    omega

/-! ### What is accepted -/

/-- The fields that say nothing of what is granted pass their checks. -/
def GrantFile.FieldsOk (f : GrantFile) : Prop :=
  f.format = text "mutant-disclosure-grant" ∧
    (∃ profile, grantFileProfile f.version = some profile ∧ f.kdf.algorithm = profile.algorithm ∧
      f.kdf.time = profile.time ∧ f.kdf.memoryKiB = profile.memoryKiB ∧
      f.kdf.threads = profile.threads ∧ f.kdf.keyLen = profile.keyLen) ∧
    hexOfLength f.disclosureUID disclosureUIDSize ≠ none ∧ hexOfLength f.caseUID caseUIDSize ≠ none ∧
    hexOfLength f.recordUID recordUIDSize ≠ none ∧ 1 ≤ f.sealedUnderGeneration ∧
    0 < f.segments ∧ f.segments ≤ maxRecordSegments ∧
    hexOfLength f.descriptorsRoot digestSize ≠ none ∧ hexOfLength f.kdf.salt grantSaltSize ≠ none ∧
    hexOfLength f.nonce nonceSize ≠ none

/-- What `validate` asks of a file. -/
theorem GrantFile.validate_ok_iff : f.validate = .ok () ↔ f.FieldsOk ∧ f.granted ≤ f.segments ∧
    (∃ runs, f.runs = some runs ∧ checkRuns f.segments 0 none 0 runs = .ok f.granted) ∧
    UInt64.ofNat f.blob.length =
      2 * (f.granted * UInt64.ofNat grantMaterialSize + UInt64.ofNat aeadOverhead) := by
  unfold validate FieldsOk
  cases hprofile : grantFileProfile f.version with
  | none => simp only [Result.ite_error_eq_ok, reduceCtorEq, and_false, false_and, exists_false]
  | some profile =>
    cases hruns : f.runs with
    | none => simp only [Result.ite_error_eq_ok, reduceCtorEq, and_false, false_and, exists_false]
    | some runs =>
      cases hcounted : checkRuns f.segments 0 none 0 runs with
      | error e => simp only [Result.ite_error_eq_ok, some.injEq, exists_eq_left', hcounted,
          reduceCtorEq, and_false, false_and]
      | ok counted =>
        simp only [Result.ite_error_eq_ok, not_or, UInt64.not_lt, UInt32.not_lt,
          UInt64.pos_iff_ne_zero, some.injEq, exists_eq_left', hcounted, Except.ok.injEq]
        tauto

theorem parseGrantFile_ok {data : Bytes} (h : parseGrantFile data = .ok f) :
    f.validate = .ok () := by
  revert h
  fun_cases parseGrantFile data with
  | case4 _ _ _ hvalid =>
    rintro ⟨⟩
    exact hvalid
  | _ => rintro ⟨⟩

/-- The checks accept only runs that go forward, end in range and are apart. -/
theorem runsIn_of_checkRuns (hsm : segments ≤ maxRecordSegments) {i : Nat}
    {pre : Option GrantRun} {counted counted' : UInt64} (hbef : ∀ b ∈ pre, b.last < segments)
    (h : checkRuns segments i pre counted runs = .ok counted') :
    RunsIn segments runs ∧ ∀ b ∈ pre, ∀ run ∈ runs, b.last.toNat + 1 < run.first.toNat := by
  induction runs generalizing i pre counted with
  | nil => exact ⟨⟨by simp, by simp, .nil⟩, by simp⟩
  | cons run runs ih =>
    rw [checkRuns] at h
    split_ifs at h with hback hrng hadjoins
    have hlast := UInt64.not_le.mp hrng
    rw [UInt64.lt_iff_toNat_lt, Nat.not_lt] at hback
    obtain ⟨hin, haft⟩ := ih (fun b hb => mem_some_iff.mp hb ▸ hlast) h
    refine ⟨hin.cons hback hlast (haft run rfl), ?_⟩
    rintro b rfl
    -- `last + 1` does not wrap below the limit on segments
    have hgap : b.last.toNat + 1 < run.first.toNat := by
      have hb := UInt64.lt_iff_toNat_lt.mp (hbef b rfl)
      have hmax := UInt64.le_iff_toNat_le.mp hsm
      have hmax' : maxRecordSegments.toNat = 2 ^ 20 := by decide
      rw [any_some, decide_eq_true_eq, UInt64.le_iff_toNat_le,
        toNat_succ (by omega), Nat.not_le] at hadjoins
      exact hadjoins
    refine forall_mem_cons.mpr ⟨hgap, fun r hr => ?_⟩
    have := haft run rfl r hr
    omega

theorem RunsIn.bound (h : RunsIn segments runs) (hrun : run ∈ runs) : run.last.toNat < 2 ^ 64 - 1 := by
  have := UInt64.lt_iff_toNat_lt.mp (h.range run hrun)
  have := segments.toNat_lt
  omega

theorem RunsIn.mem_runIndices (h : RunsIn segments runs) (hrun : run ∈ runs) {x : UInt64}
    (hx : x ∈ runIndices run) : run.first.toNat ≤ x.toNat ∧ x.toNat ≤ run.last.toNat := by
  obtain ⟨k, hk, rfl⟩ := mem_map.mp hx
  have := h.bound hrun
  have := h.forward run hrun
  have := mem_range.mp hk
  rw [UInt64.toNat_ofNat']
  omega

/-- The indices of runs that are apart are ascending. -/
theorem RunsIn.ascending (h : RunsIn segments runs) :
    (runs.flatMap runIndices).Pairwise fun a b => a.toNat < b.toNat := by
  rw [pairwise_flatMap]
  refine ⟨fun run hrun => ?_, h.apart.imp_of_mem fun {a b} ha hb hgap x hx y hy => ?_⟩
  · rw [runIndices, pairwise_map]
    refine pairwise_lt_range.imp_of_mem fun {j k} hj hk hlt => ?_
    have := h.bound hrun
    have := mem_range.mp hk
    rw [UInt64.toNat_ofNat', UInt64.toNat_ofNat']
    omega
  · have := (h.mem_runIndices ha hx).2
    have := (h.mem_runIndices hb hy).1
    omega

/-- A run after the runs of other indices, with a gap between, is the last of the runs of all. -/
theorem grantRunsOf_append_runIndices {xs : List UInt64} (hlast : run.last.toNat < 2 ^ 64 - 1)
    (hfwd : run.first.toNat ≤ run.last.toNat)
    (hgap : ∀ r ∈ (grantRunsOf xs).getLast?, r.last.toNat + 1 < run.first.toNat) :
    grantRunsOf (xs ++ runIndices run) = grantRunsOf xs ++ [run] := by
  -- the run grows by an index at a time
  have hgrow (k : Nat) (hk : run.first.toNat + k ≤ run.last.toNat) :
      grantRunsOf (xs ++ (range (k + 1)).map fun j => UInt64.ofNat (run.first.toNat + j)) =
        grantRunsOf xs ++ [⟨run.first, UInt64.ofNat (run.first.toNat + k)⟩] := by
    induction k with
    | zero =>
      rw [range_one, map_singleton, Nat.add_zero, UInt64.ofNat_toNat, grantRunsOf_append_singleton]
      split
      · next r hr =>
        have hr' := hgap r hr
        rw [← toNat_succ (by omega)] at hr'
        exact if_neg fun heq => Nat.lt_irrefl _ (heq ▸ hr')
      · rfl
    | succ k ih =>
      rw [range_succ, map_append, map_singleton, ← append_assoc,
        grantRunsOf_append_singleton, ih (by omega), getLast?_concat]
      dsimp only
      rw [if_pos (by rw [← Nat.add_assoc, UInt64.ofNat_add _ 1]; rfl), dropLast_concat]
  have hall := hgrow (run.last.toNat - run.first.toNat) (by omega)
  rwa [show run.first.toNat + (run.last.toNat - run.first.toNat) = run.last.toNat by omega,
    UInt64.ofNat_toNat] at hall

/-- Runs that are apart are the runs of the indices they spell. -/
theorem RunsIn.grantRunsOf_eq (h : RunsIn segments runs) :
    grantRunsOf (runs.flatMap runIndices) = runs := by
  induction runs using reverseRecOn with
  | nil => rfl
  | append_singleton front run ih =>
    obtain ⟨hfr, -, hgap⟩ := pairwise_append.mp h.apart
    have hin : RunsIn segments front := ⟨fun r hr => h.forward r (mem_append_left _ hr),
      fun r hr => h.range r (mem_append_left _ hr), hfr⟩
    have hrun : run ∈ front ++ [run] := mem_append_right _ mem_cons_self
    rw [flatMap_append, flatMap_singleton, grantRunsOf_append_runIndices (h.bound hrun)
      (h.forward run hrun), ih hin]
    rw [ih hin]
    exact fun r hr => hgap r (mem_of_getLast? hr) run mem_cons_self

/-! ### The codec -/

/-- The runs of an ascending list go forward, end in range and are apart, and spell it. -/
theorem spelled (hasc : indices.Pairwise fun a b => a.toNat < b.toNat)
    (hrng : ∀ i ∈ indices, i < segments) :
    RunsIn segments (grantRunsOf indices) ∧ (grantRunsOf indices).flatMap runIndices = indices := by
  suffices ∃ runs, RunsIn segments runs ∧ runs.flatMap runIndices = indices by
    obtain ⟨runs, hin, rfl⟩ := this
    rw [hin.grantRunsOf_eq]
    exact ⟨hin, rfl⟩
  induction indices with
  | nil => exact ⟨[], ⟨by simp, by simp, .nil⟩, rfl⟩
  | cons x xs ih =>
    obtain ⟨hx, hasc⟩ := pairwise_cons.mp hasc
    obtain ⟨hlast, hrng⟩ := forall_mem_cons.mp hrng
    obtain ⟨runs, hin, rfl⟩ := ih hasc hrng
    match runs, hin, hx with
    | [], hin, _ =>
      exact ⟨[⟨x, x⟩], hin.cons (Nat.le_refl _) hlast (by simp), by simp [runIndices_single]⟩
    | run :: rest, hin, hx =>
      have hfwd := hin.forward run mem_cons_self
      have hlt := hx run.first (mem_flatMap.mpr ⟨run, mem_cons_self, first_mem_runIndices run⟩)
      obtain ⟨haft, -⟩ := pairwise_cons.mp hin.apart
      by_cases hnext : x.toNat + 1 = run.first.toNat
      · -- the first run takes in the index before it
        refine ⟨⟨x, run.last⟩ :: rest, hin.tail.cons (by dsimp only; omega)
          (hin.range run mem_cons_self) haft, ?_⟩
        rw [flatMap_cons, flatMap_cons, runIndices_extend hnext hfwd, cons_append]
      · refine ⟨⟨x, x⟩ :: run :: rest, hin.cons (Nat.le_refl _) hlast ?_, ?_⟩
        · refine forall_mem_cons.mpr ⟨by dsimp only; omega, fun r hr => ?_⟩
          have := haft r hr
          dsimp only
          omega
        · rw [flatMap_cons, runIndices_single, singleton_append]

/-- Ascending indices are no more than the segments they are among. -/
theorem length_le_of_ascending (hasc : indices.Pairwise fun a b => a.toNat < b.toNat)
    (hrng : ∀ i ∈ indices, i < segments) : indices.length ≤ segments.toNat := by
  have hnd : (indices.map UInt64.toNat).Nodup := by
    rw [Nodup, pairwise_map]
    exact hasc.imp fun hlt => Nat.ne_of_lt hlt
  have hsub : indices.map UInt64.toNat ⊆ range segments.toNat := by
    intro n hn
    obtain ⟨i, hi, rfl⟩ := mem_map.mp hn
    exact mem_range.mpr (UInt64.lt_iff_toNat_lt.mp (hrng i hi))
  have hle := (subperm_of_subset hnd hsub).length_le
  rwa [length_map, length_range] at hle

/-- Material is found at the position of its index. -/
theorem RecordGrant.slot_eq_some_iff {g : RecordGrant} {k : Nat}
    (hasc : g.indices.Pairwise fun a b => a.toNat < b.toNat) {index : UInt64} :
    g.slot index = some k ↔ g.indices[k]? = some index := by
  have hlt {x y : Nat} (hxy : x < y) (hy : y < g.indices.length) :
      (g.indices.getD x 0).toNat < (g.indices.getD y 0).toNat := by
    rw [getD_eq_getElem _ _ (Nat.lt_trans hxy hy), getD_eq_getElem _ _ hy]
    exact pairwise_iff_getElem.mp hasc x y _ hy hxy
  have hsplits := Search.splits_getD UInt64.le_trans
    (hasc.imp fun h => UInt64.le_iff_toNat_le.mpr (Nat.le_of_lt h)) index 0
  unfold RecordGrant.slot
  dsimp only
  generalize (Search.search g.indices.length fun i => index ≤ g.indices.getD i 0) = i at hsplits
  constructor
  · intro h
    split_ifs at h with hfnd
    rwa [← Option.some.inj h]
  · intro hk
    obtain ⟨hklt, hget⟩ := List.getElem?_eq_some_iff.mp hk
    have hgetD : g.indices.getD k 0 = index := by rw [getD_eq_getElem _ _ hklt, hget]
    -- the split point is the position of the index
    obtain rfl : i = k := by
      rcases Nat.lt_trichotomy i k with hik | hik | hik
      · have habove := hsplits.above i (Nat.le_refl _) (Nat.lt_trans hik hklt)
        have := hlt hik hklt
        simp only [decide_eq_true_eq, UInt64.le_iff_toNat_le, hgetD] at habove this
        omega
      · exact hik
      · have hbelow := hsplits.below k hik
        simp only [decide_eq_false_iff_not, hgetD] at hbelow
        exact absurd (UInt64.le_refl index) hbelow
    rw [if_pos hk]

/-- A file with the runs of an ascending list is expanded to that list. -/
theorem shell_eq {caseUID : CaseUID} {recordUID : RecordUID} {descriptorsRoot : Digest}
    (hcase : hexOfLength f.caseUID caseUIDSize = some caseUID)
    (hrec : hexOfLength f.recordUID recordUIDSize = some recordUID)
    (hroot : hexOfLength f.descriptorsRoot digestSize = some descriptorsRoot)
    (hruns : f.runs = some runs) (hin : RunsIn f.segments runs)
    (hgrant : f.granted.toNat = (runs.flatMap runIndices).length) :
    f.shell = .ok { caseUID, recordUID, descriptorsRoot, material := none,
                    indices := runs.flatMap runIndices,
                    generation := f.sealedUnderGeneration, total := f.segments } := by
  have hexpand := expandRuns_eq hin [] (by simp [hgrant])
  rw [nil_append] at hexpand
  unfold shell
  rw [hcase, hrec, hroot, hruns]
  dsimp only [getD_some]
  rw [hexpand]
  dsimp only
  rw [if_neg (not_not.mpr (by rw [← hgrant, UInt64.ofNat_toNat]))]

theorem GrantFile.FieldsOk.shell (h : f.FieldsOk) (hruns : f.runs = some runs)
    (hin : RunsIn f.segments runs) (hgrant : f.granted.toNat = (runs.flatMap runIndices).length) :
    ∃ g, f.shell = .ok g ∧ g.indices = runs.flatMap runIndices := by
  obtain ⟨-, -, -, hcase, hrec, -, -, -, hroot, -⟩ := h
  obtain ⟨caseUID, hcase⟩ := ne_none_iff_exists'.mp hcase
  obtain ⟨recordUID, hrec⟩ := ne_none_iff_exists'.mp hrec
  obtain ⟨root, hroot⟩ := ne_none_iff_exists'.mp hroot
  exact ⟨_, shell_eq hcase hrec hroot hruns hin hgrant, rfl⟩

/-- The runs of an ascending list of a record's segments pass, and are expanded to that list, each
index in its place.  A run list that passes is that of the ascending list it is expanded to. -/
theorem grantRuns_codec :
    (∀ (indices : List UInt64) (f : GrantFile) (data : Bytes), indices.Pairwise (· < ·) →
      (∀ i ∈ indices, i < f.segments) → f.FieldsOk → f.runs = some (grantRunsOf indices) →
      f.granted = UInt64.ofNat indices.length →
      f.blob.length = 2 * (indices.length * grantMaterialSize + aeadOverhead) →
      decodeGrantFile data = .ok f → data.length ≤ maxGrantFile →
      parseGrantFile data = .ok f ∧ ∃ g, f.shell = .ok g ∧ g.indices = indices ∧
        ∀ i index, indices[i]? = some index → g.slot index = some i) ∧
    ∀ data f, parseGrantFile data = .ok f → ∃ g, f.shell = .ok g ∧
      f.runs = some (grantRunsOf g.indices) ∧ g.indices.Pairwise (· < ·) ∧
      ∀ i ∈ g.indices, i < f.segments := by
  constructor
  -- from indices to a file and back
  · intro indices f data hasc hrange hfields hruns hgranted hblob hdecode hlength
    replace hasc := hasc.imp fun hlt => UInt64.lt_iff_toNat_lt.mp hlt
    obtain ⟨hin, hspell⟩ := spelled hasc hrange
    have hle := length_le_of_ascending hasc hrange
    have hgranted' : f.granted.toNat = indices.length := by
      have := f.segments.toNat_lt
      rw [hgranted, UInt64.toNat_ofNat', Nat.mod_eq_of_lt (by omega)]
    obtain ⟨g, hshell, hindices⟩ := hfields.shell hruns hin
      (by rw [hgranted', hspell])
    rw [hspell] at hindices
    refine ⟨?_, g, hshell, hindices, fun i index hi => ?_⟩
    · have hvalid : f.validate = .ok () := validate_ok_iff.mpr ⟨hfields,
        UInt64.le_iff_toNat_le.mpr (hgranted' ▸ hle), ⟨_, hruns, ?_⟩, ?_⟩
      · rw [parseGrantFile, if_neg (Nat.not_lt.mpr hlength), hdecode]
        dsimp only
        rw [hvalid]
      · rw [checkRuns_eq hin 0 none 0 (by simp), hspell, hgranted, UInt64.zero_add]
      · rw [hblob, hgranted, UInt64.ofNat_mul, UInt64.ofNat_add, UInt64.ofNat_mul]
        rfl
    · rw [← hindices] at hi hasc
      exact (RecordGrant.slot_eq_some_iff hasc).mpr hi
  -- from a file that is parsed to its indices
  · intro data f hparse
    obtain ⟨hfields, hle, ⟨runs, hruns, hcounted⟩, -⟩ :=
      validate_ok_iff.mp (parseGrantFile_ok hparse)
    obtain ⟨hin, -⟩ := runsIn_of_checkRuns hfields.2.2.2.2.2.2.2.1 (by simp) hcounted
    have hasc := hin.ascending
    have hrange : ∀ i ∈ runs.flatMap runIndices, i < f.segments := by
      intro i hi
      obtain ⟨run, hrun, hi⟩ := mem_flatMap.mp hi
      exact UInt64.lt_of_le_of_lt (UInt64.le_iff_toNat_le.mpr (hin.mem_runIndices hrun hi).2)
        (hin.range run hrun)
    have hcount := length_le_of_ascending hasc hrange
    rw [checkRuns_eq hin 0 none 0 (by simp), UInt64.zero_add] at hcounted
    obtain ⟨g, hshell, hindices⟩ := hfields.shell hruns hin (by
      have := f.segments.toNat_lt
      rw [← Except.ok.inj hcounted, UInt64.toNat_ofNat', Nat.mod_eq_of_lt (by omega)])
    refine ⟨g, hshell, ?_, ?_, hindices ▸ hrange⟩
    · rw [hruns, hindices, hin.grantRunsOf_eq]
    · rw [hindices]
      exact hasc.imp fun hlt => UInt64.lt_iff_toNat_lt.mpr hlt

/-- A grant of the segments 0, 1 and 3 of five. -/
def gapFile : GrantFile where
  format := text "mutant-disclosure-grant"
  version := 1
  disclosureUID := Hex.encode (replicate 16 1)
  caseUID := Hex.encode (replicate 16 2)
  recordUID := Hex.encode (replicate 16 3)
  sealedUnderGeneration := 1
  segments := 5
  granted := 3
  runs := some [⟨0, 1⟩, ⟨3, 3⟩]
  descriptorsRoot := Hex.encode (replicate 32 4)
  kdf := ⟨text "argon2id", Hex.encode (replicate 32 5), 3, 262144, 4, 32⟩
  nonce := Hex.encode (replicate 24 6)
  blob := Hex.encode (replicate 184 7)

theorem gapFile_length : (marshalGrantFile gapFile).length ≤ maxGrantFile := by
  refine Nat.le_trans (length_marshalGrantFile_le (by decide +kernel) rfl) ?_
  decide +kernel

theorem grantRuns_codec_gap : parseGrantFile (marshalGrantFile gapFile) = .ok gapFile ∧
    ∃ g, gapFile.shell = .ok g ∧ g.indices = [0, 1, 3] ∧ g.slot 3 = some 2 := by
  have hplain : ∀ t ∈ gapFile.texts, t.all Json.IsPlain = true := by decide +kernel
  -- index by index: the numbers of 64 bits are finite, and are not to be gone through
  have hrange : ∀ i ∈ ([0, 1, 3] : List UInt64), i < gapFile.segments := by
    simp only [forall_mem_cons, not_mem_nil, false_implies, implies_true, and_true]
    decide
  obtain ⟨hparse, g, hshell, hindices, hslot⟩ := grantRuns_codec.1 [0, 1, 3] gapFile
    (marshalGrantFile gapFile) (by decide) hrange
    ⟨rfl, ⟨_, rfl, rfl, rfl, rfl, rfl, rfl⟩, by decide +kernel, by decide +kernel,
      by decide +kernel, by decide, by decide, by decide, by decide +kernel, by decide +kernel,
      by decide +kernel⟩ (by decide) rfl (by decide +kernel)
    (decodeGrantFile_marshalGrantFile fun t ht => Json.valid_of_plain (hplain t ht)) gapFile_length
  exact ⟨hparse, g, hshell, hindices, hslot 2 3 rfl⟩

end Mutant.Security
