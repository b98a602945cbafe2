import Mathlib.Data.List.Nodup
import Mutant.Security.Equiv.RecordKeys
import Mutant.Security.SealRuns

/-!
# Sealing is safe with a handle's own descriptors

Along every run a handle has sealed indices `0, 1, 2, …` up to its next one, so no material comes up
twice.  Nothing keeps it from taking the descriptor of another record, though: the run is safe
exactly when no call that is taken passes one.

* `runs_sealRun`: what holds along every run;
* `sealRun_safe_iff`: the runs that are safe.
-/

namespace Mutant.Security

open List SealState

variable {ι : Type} [DecidableEq ι] {P : Primitives} {mints : ι → Mint}
  {calls pre post : List (SealCall ι)} {s : SealState ι} {c : SealCall ι}

/-! ### Handles -/

theorem newRecordKeys_mint (m : Mint) (sealable : Bool) :
    newRecordKeys P m.caseUID m.uid m.generation m.total m.recordKey.toList m.sealSalt.toList
      sealable = .ok { m.handle P with sealable } := by
  unfold newRecordKeys
  rw [if_neg (not_not.mpr Vector.length_toList), if_neg (not_not.mpr Vector.length_toList),
    if_neg m.total_ne_zero]
  rfl

/-- A handle that seals is what `NewRecordKeysForSeal` returns, and any other what `OpenRecordKeys`
returns. -/
theorem Mint.handle_eq (m : Mint) :
    (if m.sealable then newRecordKeysForSeal P m.caseUID m.uid m.generation m.total m.recordKey
        m.sealSalt
      else openRecordKeys P m.caseUID m.uid m.generation m.total m.recordKey.toList
        m.sealSalt.toList) = .ok (m.handle P) := by
  unfold newRecordKeysForSeal openRecordKeys
  rw [newRecordKeys_mint, newRecordKeys_mint]
  unfold Mint.handle
  cases m.sealable <;> rfl

/-! ### One call -/

/-- What holds along a run. -/
structure Runs (P : Primitives) (mints : ι → Mint) (calls : List (SealCall ι)) (s : SealState ι) :
    Prop where
  /-- Only the next index of a handle changes. -/
  handle : ∀ i, s.handles i = { (mints i).handle P with nextIndex := (s.handles i).nextIndex }
  /-- A handle has sealed the indices below its next one, in order. -/
  indices : ∀ i, (s.log.filter (·.handle = i)).map (·.aad.index.toNat) =
    List.range (s.handles i).nextIndex.toNat
  /-- The material of an entry is that of its handle and its descriptor. -/
  entry : ∀ e ∈ s.log, (mints e.handle).sealable = true ∧ e.aad.index < e.aad.total ∧
    e = Sealed.of P e.handle ((mints e.handle).handle P) e.aad ∧
    ∃ c ∈ calls, e.aad = c.descriptor fun i => (mints i).handle P
  /-- A handle never seals an index again. -/
  later : s.log.Pairwise fun a b => a.handle = b.handle → a.aad.index ≠ b.aad.index

namespace Runs

section

variable (h : Runs P mints calls s)

include h

theorem prk (i : ι) : (s.handles i).prk = some ((mints i).prk P) := by
  rw [h.handle i]
  rfl

theorem sealable (i : ι) : (s.handles i).sealable = (mints i).sealable := by
  rw [h.handle i]
  rfl

theorem total (i : ι) : (s.handles i).total = (mints i).total := by
  rw [h.handle i]
  rfl

/-- Descriptors do not depend on how far a handle has come. -/
theorem descriptor (c : SealCall ι) :
    c.descriptor s.handles = c.descriptor fun i => (mints i).handle P := by
  unfold SealCall.descriptor
  rw [h.handle c.source]
  rfl

end

end Runs

/-- A call that is taken is logged, and moves its handle on. -/
theorem SealState.call_of_takes {prk : Bytes} (hprk : (s.handles c.handle).prk = some prk)
    (h : (s.handles c.handle).Takes (c.descriptor s.handles) c.plaintext) :
    s.call P c =
      { handles := fun i =>
          if i = c.handle then
            { s.handles c.handle with nextIndex := (s.handles c.handle).nextIndex + 1 }
          else s.handles i
        log := s.log ++ [Sealed.of P c.handle (s.handles c.handle) (c.descriptor s.handles)] } := by
  unfold call
  dsimp only
  rw [RecordKeys.sealSegment_of_takes hprk h]

/-- A call that is not taken changes nothing. -/
theorem SealState.call_of_not_takes
    (h : ¬ (s.handles c.handle).Takes (c.descriptor s.handles) c.plaintext) : s.call P c = s := by
  obtain ⟨e, he⟩ := RecordKeys.sealSegment_of_not_takes (P := P) h
  unfold call
  dsimp only
  rw [he]

/-- The material of an entry is that of a handle as it was made. -/
theorem Runs.sealed_of (h : Runs P mints calls s) (i : ι) (aad : SegmentAAD) :
    Sealed.of P i (s.handles i) aad = Sealed.of P i ((mints i).handle P) aad := by
  unfold Sealed.of
  rw [h.prk]
  rfl

theorem Runs.index_lt_next (h : Runs P mints calls s) {e : Sealed ι} (he : e ∈ s.log) :
    e.aad.index < (s.handles e.handle).nextIndex := by
  have hmem : e.aad.index.toNat ∈ range (s.handles e.handle).nextIndex.toNat := by
    rw [← h.indices e.handle]
    exact mem_map.mpr ⟨e, mem_filter.mpr ⟨he, by simp⟩, rfl⟩
  exact UInt64.lt_iff_toNat_lt.mpr (mem_range.mp hmem)

/-- One call keeps what holds along a run. -/
theorem Runs.call (h : Runs P mints calls s) (hc : c ∈ calls) :
    Runs P mints calls (s.call P c) := by
  by_cases htk : (s.handles c.handle).Takes (c.descriptor s.handles) c.plaintext
  · rw [call_of_takes (h.prk c.handle) htk]
    obtain ⟨hseal, hrng, hnext, -, -⟩ := htk
    have hbd : (s.handles c.handle).nextIndex.toNat + 1 < 2 ^ 64 := by
      have hlt := UInt64.lt_iff_toNat_lt.mp hrng
      have := (c.descriptor s.handles).total.toNat_lt
      rw [hnext] at hlt
      omega
    have hsucc : ((s.handles c.handle).nextIndex + 1).toNat =
        (s.handles c.handle).nextIndex.toNat + 1 := by
      exact Nat.mod_eq_of_lt hbd
    -- the handles, the indices in order, the entries, and no index twice
    constructor
    · intro i
      dsimp only
      split_ifs with hi
      · rw [hi, h.handle c.handle]
      · exact h.handle i
    · intro i
      dsimp only
      rw [filter_append, map_append, h.indices i]
      split_ifs with hi
      · have hlast : [Sealed.of P c.handle (s.handles c.handle) (c.descriptor s.handles)].filter
            (·.handle = i) = [Sealed.of P c.handle (s.handles c.handle) (c.descriptor s.handles)] := by
          exact filter_eq_self.mpr (by simp [Sealed.of, hi])
        rw [hlast, hi, hsucc, range_succ, ← hnext]
        rfl
      · have hlast : [Sealed.of P c.handle (s.handles c.handle) (c.descriptor s.handles)].filter
            (·.handle = i) = [] := by
          exact filter_eq_nil_iff.mpr (by simpa [Sealed.of] using Ne.symm hi)
        rw [hlast, map_nil, append_nil]
    · intro e he
      rcases mem_append.mp he with he | he
      · exact h.entry e he
      · obtain rfl := mem_singleton.mp he
        refine ⟨(h.sealable c.handle).symm.trans hseal, hrng, h.sealed_of c.handle _, c, hc,
          h.descriptor c⟩
    · refine pairwise_append.mpr ⟨h.later, pairwise_singleton _ _, ?_⟩
      intro a ha b hb hab
      obtain rfl := mem_singleton.mp hb
      have hlt := h.index_lt_next ha
      have hidx : (Sealed.of P c.handle (s.handles c.handle) (c.descriptor s.handles)).aad.index =
        (s.handles c.handle).nextIndex := hnext
      rw [hidx]
      rw [show a.handle = c.handle from hab] at hlt
      exact UInt64.ne_of_lt hlt
  · rw [call_of_not_takes htk]
    exact h

/-! ### Runs -/

theorem Runs.mono (h : Runs P mints calls s) (hsub : calls ⊆ post) : Runs P mints post s := by
  refine ⟨h.handle, h.indices, ?_, h.later⟩
  intro e he
  obtain ⟨hseal, hrng, hof, c, hc, haad⟩ := h.entry e he
  exact ⟨hseal, hrng, hof, c, hsub hc, haad⟩

theorem runs_init : Runs P mints [] (⟨fun i => (mints i).handle P, []⟩ : SealState ι) :=
  ⟨fun _ => rfl, fun _ => rfl, by simp, .nil⟩

theorem sealRun_append_singleton (mints : ι → Mint) (pre : List (SealCall ι)) (c : SealCall ι) :
    sealRun P mints (pre ++ [c]) = (sealRun P mints pre).call P c := by
  rw [sealRun, foldl_append]
  rfl

theorem runs_sealRun (mints : ι → Mint) (calls : List (SealCall ι)) :
    Runs P mints calls (sealRun P mints calls) := by
  induction calls using reverseRecOn with
  | nil => exact runs_init
  | append_singleton pre c ih =>
    rw [sealRun_append_singleton]
    exact (ih.mono (subset_append_left pre [c])).call (by simp)

/-- What was sealed stays in the log. -/
theorem log_subset_call (h : Runs P mints calls s) : s.log ⊆ (s.call P c).log := by
  by_cases htk : (s.handles c.handle).Takes (c.descriptor s.handles) c.plaintext
  · rw [call_of_takes (h.prk c.handle) htk]
    exact subset_append_left _ _
  · rw [call_of_not_takes htk]
    exact Subset.refl _

theorem log_subset_append (mints : ι → Mint) (pre post : List (SealCall ι)) :
    (sealRun P mints pre).log ⊆ (sealRun P mints (pre ++ post)).log := by
  induction post using reverseRecOn with
  | nil => simp
  | append_singleton post c ih =>
    rw [← append_assoc, sealRun_append_singleton]
    exact Subset.trans ih (log_subset_call (runs_sealRun mints (pre ++ post)))

/-! ### Safety -/

/-- A call that is taken ends up in the log. -/
theorem taken_mem_log (pre post : List (SealCall ι))
    (h : ((sealRun P mints pre).handles c.handle).Takes
      (c.descriptor (sealRun P mints pre).handles) c.plaintext) :
    ∃ e ∈ (sealRun P mints (pre ++ c :: post)).log, e.handle = c.handle ∧
      e.aad = c.descriptor (sealRun P mints pre).handles := by
  refine ⟨Sealed.of P c.handle ((sealRun P mints pre).handles c.handle)
    (c.descriptor (sealRun P mints pre).handles), ?_, rfl, rfl⟩
  rw [show pre ++ c :: post = pre ++ [c] ++ post by simp]
  apply log_subset_append mints (pre ++ [c]) post
  rw [sealRun_append_singleton, call_of_takes ((runs_sealRun mints pre).prk c.handle) h]
  simp

/-- With own descriptors only, everything in the log is of the handle's record. -/
theorem OwnDescriptors.owns (h : OwnDescriptors P mints calls) :
    ∀ e ∈ (sealRun P mints calls).log, (mints e.handle).Owns e.aad := by
  induction calls using reverseRecOn with
  | nil => simp [sealRun]
  | append_singleton pre c ih =>
    have hpre : OwnDescriptors P mints pre := by
      intro pre' d post' heq
      exact h pre' d (post' ++ [c]) (by rw [heq]; simp)
    have hruns := runs_sealRun (P := P) mints pre
    rw [sealRun_append_singleton]
    by_cases htk : ((sealRun P mints pre).handles c.handle).Takes
        (c.descriptor (sealRun P mints pre).handles) c.plaintext
    · rw [call_of_takes (hruns.prk c.handle) htk]
      intro e he
      rcases mem_append.mp he with he | he
      · exact ih hpre e he
      · obtain rfl := mem_singleton.mp he
        exact h pre c [] rfl htk
    · rw [call_of_not_takes htk]
      exact ih hpre

/-- Two entries of a run differ in handle or in index, so their material differs. -/
theorem Runs.noReuse (h : Runs P mints calls s) (hd : Distinct P mints calls) :
    s.log.Pairwise fun a b => (a.key, a.nonce) ≠ (b.key, b.nonce) := by
  refine h.later.imp_of_mem ?_
  intro a b ha hb hlater heq
  obtain ⟨hsa, -, hofa, c, hc, haada⟩ := h.entry a ha
  obtain ⟨hsb, -, hofb, d, hdc, haadb⟩ := h.entry b hb
  have hmaterial : RecordKeys.segmentMaterial P ((mints a.handle).prk P) a.aad.encode =
      RecordKeys.segmentMaterial P ((mints b.handle).prk P) b.aad.encode := by
    rw [hofa, hofb] at heq
    exact heq
  have hcut := RecordKeys.material_eq_of_segmentMaterial_eq hmaterial
  rw [haada, haadb] at hcut
  obtain ⟨hprk, hinfo⟩ := hd.material a.handle b.handle c hc d hdc hcut
  have hhdl := hd.recordKey a.handle b.handle hsa hsb (hd.prk _ _ hprk)
  have hencode := hd.digest _ _ ⟨c, hc, rfl⟩ ⟨d, hdc, rfl⟩ (RecordKeys.segmentInfo_inj hinfo)
  have haad : a.aad = b.aad := by
    rw [haada, haadb]
    exact SegmentAAD.encode_inj hencode
  exact hlater hhdl (by rw [haad])

/-- With own descriptors only, a handle has sealed the segments below its next one once each. -/
theorem Runs.timesSealed_eq (h : Runs P mints calls s)
    (hown : ∀ e ∈ s.log, (mints e.handle).Owns e.aad) (i : ι) (index : Nat) :
    timesSealed mints s.log i index =
      if index < (s.handles i).nextIndex.toNat then 1 else 0 := by
  have hcnt : timesSealed mints s.log i index =
      ((s.log.filter (·.handle = i)).map (·.aad.index.toNat)).count index := by
    rw [count_eq_countP, countP_map, countP_filter]
    refine countP_congr fun e he => ?_
    have := hown e he
    simp only [decide_eq_true_eq, Function.comp, beq_iff_eq, Bool.and_eq_true]
    constructor
    · rintro ⟨rfl, -, hidx⟩
      exact ⟨hidx, rfl⟩
    · rintro ⟨hidx, rfl⟩
      exact ⟨rfl, this, hidx⟩
  rw [hcnt, h.indices]
  split_ifs with hlt
  · exact count_eq_one_of_mem nodup_range (mem_range.mpr hlt)
  · exact count_eq_zero.mpr (by simpa using hlt)

/-- A handle says it is complete exactly when each of its indices was sealed once. -/
theorem Runs.sealComplete_iff (h : Runs P mints calls s)
    (hown : ∀ e ∈ s.log, (mints e.handle).Owns e.aad) (i : ι) :
    (s.handles i).sealComplete = true ↔
      ∀ idx < (mints i).total.toNat, timesSealed mints s.log i idx = 1 := by
  have hpos : 0 < (mints i).total.toNat :=
    Nat.pos_of_ne_zero fun h0 => (mints i).total_ne_zero (UInt64.toNat_inj.mp h0)
  rw [RecordKeys.sealComplete, Bool.and_eq_true, beq_iff_eq, h.sealable, h.total,
    ← UInt64.toNat_inj]
  simp only [h.timesSealed_eq hown i]
  constructor
  · rintro ⟨-, hnext⟩ idx hidx
    rw [hnext, if_pos hidx]
  · intro hall
    have hrch : (mints i).total.toNat ≤ (s.handles i).nextIndex.toNat := by
      have hlast := hall ((mints i).total.toNat - 1) (by omega)
      split_ifs at hlast with hlt
      omega
    -- the entry before the next index is one of the record's, so the handle went no further
    obtain ⟨e, he, hidx⟩ : ∃ e ∈ s.log.filter (·.handle = i),
        e.aad.index.toNat = (s.handles i).nextIndex.toNat - 1 := by
      have hmem : (s.handles i).nextIndex.toNat - 1 ∈
          (s.log.filter (·.handle = i)).map (·.aad.index.toNat) := by
        rw [h.indices, mem_range]
        omega
      simpa using hmem
    obtain ⟨hlog, hhdl⟩ := mem_filter.mp he
    obtain rfl : e.handle = i := by simpa using hhdl
    obtain ⟨hseal, hrng, -, -⟩ := h.entry e hlog
    rw [(hown e hlog).2.2.2, UInt64.lt_iff_toNat_lt] at hrng
    exact ⟨hseal, by omega⟩

/-- A run of sealing calls is safe exactly when each call that is taken passes a descriptor of its
handle's own record. -/
theorem sealRun_safe_iff (P : Primitives) (mints : ι → Mint) (calls : List (SealCall ι))
    (hd : Distinct P mints calls) :
    SealsSafely mints (sealRun P mints calls) ↔ OwnDescriptors P mints calls := by
  have hruns := runs_sealRun (P := P) mints calls
  constructor
  · intro hsafe pre c post heq htakes
    obtain ⟨e, he, hhandle, haad⟩ := taken_mem_log pre post htakes
    rw [← heq] at he
    rw [← haad, ← hhandle]
    exact hsafe.ownRecord e he
  · intro hown
    exact ⟨hruns.noReuse hd, hown.owns, hruns.sealComplete_iff hown.owns⟩

/-! ### Two records -/

/-- A handle's own descriptor names its record. -/
theorem owns_descriptor (hc : c.source = c.handle) (pre : List (SealCall ι)) :
    (mints c.handle).Owns (c.descriptor (sealRun P mints pre).handles) := by
  rw [(runs_sealRun mints pre).descriptor, SealCall.descriptor, hc]
  exact ⟨rfl, rfl, rfl, rfl⟩

/-- A record of two segments and a record of one. -/
def twoRecords (i : Bool) : Mint where
  caseUID := Vector.replicate _ 7
  uid := Vector.replicate _ (if i then 1 else 2)
  generation := 1
  total := if i then 2 else 1
  recordKey := Vector.replicate _ (if i then 3 else 4)
  sealSalt := Vector.replicate _ 5
  sealable := true
  total_ne_zero := by cases i <;> decide

/-- The call that seals one byte. -/
def sealByte (handle source : Bool) (index : UInt64) : SealCall Bool where
  handle := handle
  source := source
  index := index
  offset := index
  length := 1
  classTag := Vector.replicate _ 0
  plaintext := [65]

/-- A record sealed, with an index tried twice. -/
def sealTwice : List (SealCall Bool) :=
  [sealByte true true 0, sealByte true true 0, sealByte true true 1]

theorem distinct_sealTwice : Distinct copying twoRecords sealTwice := by
  refine ⟨by decide, by decide +kernel, by decide +kernel, ?_⟩
  have hall : ∀ c ∈ sealTwice, ∀ d ∈ sealTwice,
      copying.sha256 (c.descriptor fun i => (twoRecords i).handle copying).encode =
        copying.sha256 (d.descriptor fun i => (twoRecords i).handle copying).encode →
      (c.descriptor fun i => (twoRecords i).handle copying).encode =
        (d.descriptor fun i => (twoRecords i).handle copying).encode := by decide +kernel
  rintro _ _ ⟨c, hc, rfl⟩ ⟨d, hd, rfl⟩
  exact hall c hc d hd

theorem sealRun_safe_sealTwice : SealsSafely twoRecords (sealRun copying twoRecords sealTwice) := by
  refine (sealRun_safe_iff copying twoRecords sealTwice distinct_sealTwice).mpr ?_
  intro pre c post heq _
  have hall : ∀ d ∈ sealTwice, d.source = d.handle := by decide
  exact owns_descriptor (hall c (by rw [heq]; simp)) pre

/-- The handle of the one record given the descriptor of the other. -/
def sealForeign : List (SealCall Bool) := [sealByte false true 0]

/-- A handle seals a segment of another record, and counts its own as complete for it. -/
theorem sealForeign_unsafe :
    Distinct copying twoRecords sealForeign ∧
      ¬ SealsSafely twoRecords (sealRun copying twoRecords sealForeign) ∧
      ((sealRun copying twoRecords sealForeign).handles false).sealComplete = true ∧
      timesSealed twoRecords (sealRun copying twoRecords sealForeign).log false 0 = 0 := by
  refine ⟨⟨by decide, by decide +kernel, by decide +kernel, ?_⟩, ?_, by decide +kernel,
    by decide +kernel⟩
  · rintro _ _ ⟨c, hc, rfl⟩ ⟨d, hd, rfl⟩ _
    rw [mem_singleton.mp hc, mem_singleton.mp hd]
  · intro hsafe
    have hforeign : ∃ e ∈ (sealRun copying twoRecords sealForeign).log,
        ¬ (twoRecords e.handle).Owns e.aad := by decide +kernel
    obtain ⟨e, he, hnot⟩ := hforeign
    exact hnot (hsafe.ownRecord e he)

end Mutant.Security
