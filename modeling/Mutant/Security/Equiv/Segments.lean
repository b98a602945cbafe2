import Mathlib.Algebra.GroupWithZero.Nat
import Mutant.Security.RecordFile

/-!
# How the segments of a record lie

The segments a header describes follow one another in the plaintext and in the file, are numbered
from zero, and end where the plaintext ends.

* `spanSegments_laid`, `segmentsFrom_laid`: the segments of a span, and of several;
* `RecordHeader.segments_tile`: the segments of a header that is parsed.
-/

namespace Mutant.Security

open List UInt64

variable {h h' : RecordHeader} {count : UInt64} {spans : List RecordSpan}
  {segs : List RecordSegment}

theorem toNat_add_of_lt {a b : UInt64} (h : a.toNat + b.toNat < 2 ^ 64) :
    (a + b).toNat = a.toNat + b.toNat := by
  exact Nat.mod_eq_of_lt h

theorem toNat_ite_lt (a b : UInt64) : (if a < b then a else b).toNat = min a.toNat b.toNat := by
  split
  · next h => exact (Nat.min_eq_left (Nat.le_of_lt (lt_iff_toNat_lt.mp h))).symm
  · next h => exact (Nat.min_eq_right (Nat.not_lt.mp (mt lt_iff_toNat_lt.mpr h))).symm

/-- The segments stand one after another, numbered from `index`, from `offset` to `stop`.  What is
stored of the segments before is their plaintext and a tag for each. -/
inductive Laid : (index offset : Nat) → List RecordSegment → (stop : Nat) → Prop
  | nil (index offset : Nat) : Laid index offset [] offset
  | cons {index offset stop : Nat} {s : RecordSegment} {rest : List RecordSegment}
      (hindex : s.index.toNat = index) (hoffset : s.offset.toNat = offset)
      (hpos : 0 < s.length.toNat) (hlimit : s.length.toNat ≤ maxSegmentPlaintext)
      (hstored : s.storedOffset.toNat = offset + aeadOverhead * index)
      (hlength : s.storedLength.toNat = s.length.toNat + aeadOverhead)
      (hrest : Laid (index + 1) (offset + s.length.toNat) rest stop) :
      Laid index offset (s :: rest) stop

namespace Laid

variable {index offset stop stop' : Nat} {segs segs' : List RecordSegment}

section

variable (hlaid : Laid index offset segs stop)

include hlaid

theorem append (h' : Laid (index + segs.length) stop segs' stop') :
    Laid index offset (segs ++ segs') stop' := by
  induction hlaid with
  | nil index offset => exact h'
  | cons hidx hoff hpos hlim hsto hlen _ ih =>
    refine .cons hidx hoff hpos hlim hsto hlen (ih ?_)
    rwa [Nat.add_assoc, Nat.add_comm 1]

theorem offset_le : offset ≤ stop := by
  induction hlaid with
  | nil => exact Nat.le_refl _
  | cons => omega

/-- A plaintext of few segments is short. -/
theorem stop_le : stop ≤ offset + maxSegmentPlaintext * segs.length := by
  induction hlaid with
  | nil => omega
  | cons =>
    rw [length_cons, Nat.mul_add]
    omega

/-- Where a segment of a row of segments lies. -/
theorem mem {s : RecordSegment} (hs : s ∈ segs) :
    index ≤ s.index.toNat ∧ s.index.toNat < index + segs.length ∧ offset ≤ s.offset.toNat ∧
      s.offset.toNat + s.length.toNat ≤ stop ∧ s.length.toNat ≤ maxSegmentPlaintext ∧
      s.storedOffset.toNat = s.offset.toNat + aeadOverhead * s.index.toNat ∧
      s.storedLength.toNat = s.length.toNat + aeadOverhead := by
  induction hlaid with
  | nil => cases hs
  | @cons index offset stop s' rest hidx hoff hpos hlim hsto hlen hrest ih =>
    rw [length_cons]
    rcases mem_cons.mp hs with rfl | hs
    · have := hrest.offset_le
      refine ⟨by omega, by omega, by omega, by omega, hlim, ?_, hlen⟩
      rw [hsto, hidx, hoff]
    · obtain ⟨h₁, h₂, h₃, h₄, h₅, h₆, h₇⟩ := ih hs
      exact ⟨by omega, by omega, by omega, h₄, h₅, h₆, h₇⟩

/-- Where the stored segments end. -/
theorem foldl_stored {stored : UInt64}
    (hsto : stored.toNat = offset + aeadOverhead * index) (hstop : stop < 2 ^ 63)
    (hcnt : index + segs.length ≤ 2 ^ 20) :
    (segs.foldl (fun stored s => stored + s.storedLength) stored).toNat =
      stop + aeadOverhead * (index + segs.length) := by
  have hover : aeadOverhead = 16 := rfl
  induction hlaid generalizing stored with
  | nil => exact hsto
  | cons _ _ _ _ _ hlen hrest ih =>
    have hle := hrest.offset_le
    rw [length_cons] at hcnt ⊢
    rw [foldl_cons, ih ?_ hstop (by omega)]
    · simp only [hover]
      omega
    · simp only [hover] at hsto hlen ⊢
      rw [toNat_add_of_lt (by omega)]
      omega

theorem sum_storedLength : (segs.map fun s => s.storedLength.toNat).sum + offset =
      stop + aeadOverhead * segs.length := by
  induction hlaid with
  | nil => simp
  | cons _ _ _ _ _ hlen _ ih =>
    rw [map_cons, sum_cons, length_cons, Nat.mul_succ]
    omega

end

end Laid

/-! ### Counting -/

/-- How many pieces of at most `size` bytes there are in `n`. -/
def pieces (n size : Nat) : Nat := n / size + if n % size ≠ 0 then 1 else 0

theorem pieces_le {n size : Nat} (hsize : 0 < size) : pieces n size ≤ n := by
  unfold pieces
  have hdiv := Nat.div_add_mod n size
  have hle : n / size ≤ size * (n / size) := Nat.le_mul_of_pos_left _ hsize
  split <;> omega

theorem le_mul_pieces (n : Nat) {size : Nat} (hsize : 0 < size) : n ≤ size * pieces n size := by
  unfold pieces
  have hdiv := Nat.div_add_mod n size
  have hmod := Nat.mod_lt n hsize
  rw [Nat.mul_add]
  split
  · omega
  · omega

/-- The first piece and those of the rest. -/
theorem pieces_of_pos {n size : Nat} (hsize : 0 < size) (hn : 0 < n) :
    pieces n size = 1 + pieces (n - min n size) size := by
  unfold pieces
  by_cases hle : size ≤ n
  · obtain ⟨m, rfl⟩ := Nat.exists_eq_add_of_le hle
    rw [Nat.min_eq_right hle, Nat.add_sub_cancel_left, Nat.add_mod_left, Nat.add_div_left _ hsize]
    omega
  · have hlt : n < size := Nat.not_le.mp hle
    rw [Nat.min_eq_left (Nat.le_of_lt hlt), Nat.sub_self, Nat.mod_eq_of_lt hlt,
      Nat.div_eq_of_lt hlt, Nat.zero_div, if_pos (Nat.ne_of_gt hn)]
    rfl

/-! ### The segments of a span -/

namespace RecordHeader

/-- The segments of a span, as long as their number fits. -/
theorem spanSegments_laid {size : UInt64} (hsize : 0 < size.toNat)
    (hmax : size.toNat ≤ maxSegmentPlaintext) (classTag : ClassTag) {stop : UInt64}
    (hstop : stop.toNat < 2 ^ 63) (fuel : Nat) (offset stored index : UInt64)
    (hle : offset.toNat ≤ stop.toNat) (hfuel : stop.toNat - offset.toNat ≤ fuel)
    (hcnt : index.toNat + pieces (stop.toNat - offset.toNat) size.toNat ≤ 2 ^ 20)
    (hsto : stored.toNat = offset.toNat + aeadOverhead * index.toNat) :
    Laid index.toNat offset.toNat (spanSegments size classTag stop fuel offset stored index)
        stop.toNat ∧ (spanSegments size classTag stop fuel offset stored index).length =
        pieces (stop.toNat - offset.toNat) size.toNat := by
  have hmax' : size.toNat ≤ 2 ^ 20 := hmax
  have hover : aeadOverhead = 16 := rfl
  induction fuel generalizing offset stored index with
  | zero =>
    have hend : offset.toNat = stop.toNat := by omega
    exact ⟨hend ▸ .nil _ _, by simp [spanSegments, pieces, hend]⟩
  | succ fuel ih =>
    rw [spanSegments]
    split_ifs with hlt
    · rw [lt_iff_toNat_lt] at hlt
      dsimp only
      -- the last segment of a span may be shorter; nothing here wraps
      generalize hlen : (if stop - offset < size then stop - offset else size) = length
      have hlengthNat : length.toNat = min (stop.toNat - offset.toNat) size.toNat := by
        rw [← hlen, toNat_ite_lt, UInt64.toNat_sub_of_le _ _ (le_iff_toNat_le.mpr hle)]
      have hps := pieces_of_pos hsize (Nat.sub_pos_of_lt hlt)
      rw [← hlengthNat] at hps
      have hoff' : (offset + length).toNat = offset.toNat + length.toNat :=
        toNat_add_of_lt (by omega)
      have hleft : stop.toNat - (offset + length).toNat =
          stop.toNat - offset.toNat - length.toNat := by omega
      have hidx' : (index + 1).toNat = index.toNat + 1 := toNat_add_of_lt (by
        rw [toNat_one]
        omega)
      have hstoredLength : (length + ofNat aeadOverhead).toNat =
          length.toNat + aeadOverhead := toNat_add_of_lt (by
        show length.toNat + 16 < 2 ^ 64
        omega)
      have hsto' : (stored + (length + ofNat aeadOverhead)).toNat =
          (offset + length).toNat + aeadOverhead * (index + 1).toNat := by
        rw [hover] at hsto hstoredLength ⊢
        rw [toNat_add_of_lt (by omega)]
        omega
      have hlength32 : length.toUInt32.toNat = length.toNat := by
        exact Nat.mod_eq_of_lt (by omega)
      obtain ⟨hlaid, hnum⟩ := ih (offset + length) _ (index + 1) (by omega) (by omega)
        (by rw [hleft]; omega) hsto'
      rw [hoff', hidx', ← hlength32] at hlaid
      refine ⟨.cons rfl rfl ?_ ?_ hsto (by rw [hlength32]; exact hstoredLength) hlaid, ?_⟩
      · rw [hlength32]
        omega
      · rw [hlength32]
        omega
      · rw [length_cons, hnum, hleft, hps, Nat.add_comm]
    · rw [lt_iff_toNat_lt] at hlt
      have hend : offset.toNat = stop.toNat := by omega
      exact ⟨hend ▸ .nil _ _, by simp [pieces, hend]⟩

/-- They have the span's class, and are no longer than a segment may be. -/
theorem spanSegments_mem {size stop : UInt64} {classTag : ClassTag} {fuel : Nat}
    {offset stored index : UInt64} :
    ∀ s ∈ spanSegments size classTag stop fuel offset stored index,
      s.classTag = classTag ∧ s.length.toNat ≤ size.toNat := by
  induction fuel generalizing offset stored index with
  | zero => exact forall_mem_nil _
  | succ fuel ih =>
    rw [spanSegments]
    split_ifs
    · refine forall_mem_cons.mpr ⟨⟨rfl, ?_⟩, ih⟩
      rw [toNat_toUInt32, toNat_ite_lt]
      exact Nat.le_trans (Nat.mod_le _ _) (Nat.min_le_right _ _)
    · exact forall_mem_nil _

/-! ### The segments of a header -/

/-- How many segments `SegmentCount` counts for a span. -/
def spanCount (h : RecordHeader) (span : RecordSpan) : UInt64 :=
  if span.length % h.segmentSize.toUInt64 ≠ 0 then span.length / h.segmentSize.toUInt64 + 1
  else span.length / h.segmentSize.toUInt64

/-- How many segments a span is cut into. -/
theorem toNat_spanCount (hsize : 0 < h.segmentSize.toNat) (span : RecordSpan) :
    (h.spanCount span).toNat = pieces span.length.toNat h.segmentSize.toNat := by
  have hps := pieces_le hsize (n := span.length.toNat)
  have hzero : span.length % h.segmentSize.toUInt64 = 0 ↔
      span.length.toNat % h.segmentSize.toNat = 0 := by
    rw [← UInt64.toNat_inj, UInt64.toNat_mod, UInt32.toNat_toUInt64, UInt64.toNat_zero]
  have hdiv : (span.length / h.segmentSize.toUInt64).toNat =
      span.length.toNat / h.segmentSize.toNat := by
    rw [UInt64.toNat_div, UInt32.toNat_toUInt64]
  simp only [spanCount, pieces, ne_eq, hzero, ite_not] at hps ⊢
  split_ifs at hps ⊢
  · exact hdiv
  · have := span.length.toNat_lt
    rw [toNat_add_of_lt (by rw [hdiv, toNat_one]; omega), hdiv, toNat_one]

/-- A span that was counted. -/
theorem countFrom_cons {i : Nat} {next : UInt64} {span : RecordSpan} {out : UInt64 × UInt64}
    (hcountFrom : h.countFrom i next count (span :: spans) = .ok out) :
    span.offset = next ∧ span.length ≠ 0 ∧ (∃ tag, classTagFromHex span.cls = some tag) ∧
      span.offset ≤ span.offset + span.length ∧
      span.offset + span.length ≤ h.plaintextLength ∧
      count + h.spanCount span ≤ maxRecordSegments ∧
      h.countFrom (i + 1) (span.offset + span.length) (count + h.spanCount span) spans = .ok out := by
  rw [countFrom] at hcountFrom
  split_ifs at hcountFrom with hoff hlen
  split at hcountFrom
  · cases hcountFrom
  next tag htag =>
  dsimp only at hcountFrom
  split at hcountFrom
  · cases hcountFrom
  next hend =>
  rw [not_or, UInt64.not_lt, UInt64.not_lt] at hend
  rw [← spanCount] at hcountFrom
  split at hcountFrom
  · cases hcountFrom
  next hcnt =>
  exact ⟨not_not.mp hoff, hlen, ⟨tag, htag⟩, hend.1, hend.2, UInt64.not_lt.mp hcnt,
    hcountFrom⟩

/-- The segment lies in a span of its class, and is no longer than a segment may be. -/
def Holds (h : RecordHeader) (spans : List RecordSpan) (s : RecordSegment) : Prop :=
  s.length.toNat ≤ h.segmentSize.toNat ∧ ∃ span ∈ spans,
    classTagFromHex span.cls = some s.classTag ∧ span.offset.toNat ≤ s.offset.toNat ∧
    s.offset.toNat + s.length.toNat ≤ span.offset.toNat + span.length.toNat ∧
    span.offset.toNat + span.length.toNat ≤ h.plaintextLength.toNat

/-- What `SegmentCount` accepts has segments, and they lie one after another.  There is a byte for
each segment counted, and no more bytes than they can hold, so neither sum overflows. -/
theorem segmentsFrom_laid (hsize : 0 < h.segmentSize.toNat)
    (hmax : h.segmentSize.toNat ≤ maxSegmentPlaintext) {i : Nat} {next stored next' count' : UInt64}
    (hcountFrom : h.countFrom i next count spans = .ok (next', count'))
    (hcnt : count.toNat ≤ 2 ^ 20) (hlow : count.toNat ≤ next.toNat)
    (hhigh : next.toNat ≤ 2 ^ 20 * count.toNat)
    (hsto : stored.toNat = next.toNat + aeadOverhead * count.toNat) :
    ∃ segs, h.segmentsFrom stored count spans = .ok segs ∧
      Laid count.toNat next.toNat segs next'.toNat ∧ (∀ s ∈ segs, h.Holds spans s) ∧
      count'.toNat = count.toNat + segs.length ∧ count'.toNat ≤ 2 ^ 20 := by
  have hmax' : h.segmentSize.toNat ≤ 2 ^ 20 := hmax
  induction spans generalizing i next count stored with
  | nil =>
    cases hcountFrom
    exact ⟨[], rfl, .nil _ _, forall_mem_nil _, rfl, hcnt⟩
  | cons span spans ih =>
    obtain ⟨hoff, -, ⟨tag, htag⟩, hgrows, hend, hfits, hrest⟩ := countFrom_cons hcountFrom
    subst hoff
    rw [le_iff_toNat_le] at hgrows hend
    have := span.length.toNat_lt
    have hstop : (span.offset + span.length).toNat = span.offset.toNat + span.length.toNat := by
      rw [UInt64.toNat_add] at hgrows ⊢
      omega
    have := (span.offset + span.length).toNat_lt
    have hspan := toNat_spanCount hsize span
    have hps := pieces_le hsize (n := span.length.toNat)
    have hcnt' : (count + h.spanCount span).toNat =
        count.toNat + pieces span.length.toNat h.segmentSize.toNat := by
      rw [toNat_add_of_lt (by omega), hspan]
    have hmaxSegments : maxRecordSegments.toNat = 2 ^ 20 := by decide
    rw [le_iff_toNat_le, hcnt'] at hfits
    have hbts : span.length.toNat ≤ 2 ^ 20 * pieces span.length.toNat h.segmentSize.toNat :=
      Nat.le_trans (le_mul_pieces _ hsize) (Nat.mul_le_mul_right _ hmax')
    have hremaining : (span.offset + span.length).toNat - span.offset.toNat = span.length.toNat := by
      omega
    have hsize' : h.segmentSize.toUInt64.toNat = h.segmentSize.toNat := UInt32.toNat_toUInt64 _
    -- this span, from where the spans before it ended
    obtain ⟨hlaid, hnum⟩ := spanSegments_laid (by rw [hsize']; exact hsize)
      (by rw [hsize']; exact hmax) tag (show (span.offset + span.length).toNat < 2 ^ 63 by omega)
      span.length.toNat span.offset stored count (by omega) (by omega)
      (by rw [hremaining]; exact hfits) hsto
    rw [hremaining, hsize'] at hnum
    have hfold := hlaid.foldl_stored hsto (by omega) (by omega)
    have hidx : count + ofNat (spanSegments h.segmentSize.toUInt64 tag
        (span.offset + span.length) span.length.toNat span.offset stored count).length =
        count + h.spanCount span := by
      rw [hnum, ← hspan, UInt64.ofNat_toNat]
    -- the spans after it
    obtain ⟨segs, hsegs, hlaid', hhold, hnum', hle⟩ := ih hrest (by omega) (by omega)
      (by omega) (by rw [hfold, hcnt', hnum])
    refine ⟨_ ++ segs, ?_, hlaid.append (by rw [hnum, ← hcnt']; exact hlaid'),
      forall_mem_append.mpr ⟨fun s hs => ?_, fun s hs => ?_⟩, ?_, hle⟩
    · rw [segmentsFrom, htag]
      dsimp only
      rw [hidx, hsegs]
    · obtain ⟨hclass, hlen⟩ := spanSegments_mem s hs
      obtain ⟨-, -, hfst, hlast, -⟩ := hlaid.mem hs
      exact ⟨by omega, span, mem_cons_self, hclass ▸ htag, hfst, by omega, by omega⟩
    · exact (hhold s hs).imp_right fun ⟨other, hoth, hin⟩ =>
        ⟨other, mem_cons_of_mem _ hoth, hin⟩
    · rw [length_append]
      omega

/-- A header whose segments can be counted. -/
theorem segmentCount_ok (hcnt : h.segmentCount = .ok count) :
    0 < h.segmentSize.toNat ∧ h.segmentSize.toNat ≤ maxSegmentPlaintext ∧ h.spans ≠ [] ∧
      h.countFrom 0 0 0 h.spans = .ok (h.plaintextLength, count) := by
  revert hcnt
  fun_cases segmentCount h with
  | case6 hsize hemp hmany next count hfrom hnext =>
    rintro ⟨⟩
    rw [not_or, Nat.not_lt, ← UInt32.toNat_inj, UInt32.toNat_zero] at hsize
    exact ⟨Nat.pos_of_ne_zero hsize.1, hsize.2, mt isEmpty_iff.mpr hemp, not_not.mp hnext ▸ hfrom⟩
  | _ => rintro ⟨⟩

/-- The segments of a header that can be counted are as many, lie one after another from the start
of the plaintext to its end, and each is held by a span. -/
theorem segments_of_count (hcnt : h.segmentCount = .ok count) :
    ∃ segs, h.segments = .ok segs ∧ Laid 0 0 segs h.plaintextLength.toNat ∧
      (∀ s ∈ segs, h.Holds h.spans s) ∧ count.toNat = segs.length ∧
      segs.length ≤ 2 ^ 20 := by
  obtain ⟨hsize, hmax, -, hfrom⟩ := segmentCount_ok hcnt
  obtain ⟨segs, hsegs, hlaid, hhold, hnum, hle⟩ := segmentsFrom_laid hsize hmax hfrom
    (by decide) (by decide) (by decide) UInt64.toNat_zero
  rw [UInt64.toNat_zero, Nat.zero_add] at hnum
  refine ⟨segs, ?_, hlaid, hhold, hnum, hnum ▸ hle⟩
  rw [RecordHeader.segments, hcnt]
  exact hsegs

theorem segmentCount_of_validate (hvalid : h.validate = .ok ()) :
    ∃ count, h.segmentCount = .ok count := by
  revert hvalid
  fun_cases validate h with
  | case9 _ _ _ _ _ _ _ count hcnt => exact fun _ => ⟨count, hcnt⟩
  | _ => rintro ⟨⟩

end RecordHeader

/-- A header that is read is valid. -/
theorem validate_of_parseRecordHeader {data : Bytes} (hpar : parseRecordHeader data = .ok h) :
    h.validate = .ok () := by
  revert hpar
  fun_cases parseRecordHeader data <;> rintro ⟨⟩
  assumption

/-- The segments of a header that is accepted are as many as were counted.  They lie one after another,
in the plaintext from its start to its end and in the file, each in a span of its class, and the size
of what is stored is that of them all. -/
theorem segments_tile {data : Bytes} {h : RecordHeader} (hparse : parseRecordHeader data = .ok h) :
    ∃ count segments, h.segmentCount = .ok count ∧ h.segments = .ok segments ∧
      segments.length = count.toNat ∧ Laid 0 0 segments h.plaintextLength.toNat ∧
      (∀ s ∈ segments, h.Holds h.spans s) ∧
      (storedDataSize segments).toNat = (segments.map fun s => s.storedLength.toNat).sum := by
  obtain ⟨count, hcount⟩ :=
    RecordHeader.segmentCount_of_validate (validate_of_parseRecordHeader hparse)
  obtain ⟨segments, hsegments, hlaid, hholds, hnumber, hle⟩ := RecordHeader.segments_of_count hcount
  refine ⟨count, segments, hcount, hsegments, hnumber.symm, hlaid, hholds, ?_⟩
  have hmax : maxSegmentPlaintext = 2 ^ 20 := rfl
  have hstop := hmax ▸ hlaid.stop_le
  -- neither the plaintext nor the tags are long enough for a sum to wrap
  have hfold := hlaid.foldl_stored (show (0 : UInt64).toNat = _ from rfl) (by omega) (by omega)
  have hsum := hlaid.sum_storedLength
  rw [Nat.zero_add] at hfold
  exact hfold.trans hsum.symm

/-- A header of two segments. -/
def sampleHeader : RecordHeader where
  format := text "mutant-record"
  version := 1
  recordUID := Hex.encode (List.replicate 16 1)
  caseUID := Hex.encode (List.replicate 16 2)
  caseKeyID := []
  sealedUnderGeneration := 1
  wrappedUnderGeneration := 1
  recordKeyNonce := []
  recordKeyWrapped := []
  sealSalt := Hex.encode (List.replicate 16 3)
  plaintextLength := 3
  segmentSize := 2
  quantum := 0
  quantisedExtra := 0
  roundsTo := []
  created := []
  examiner := []
  source := []
  spans := [⟨0, 3, Hex.encode (List.replicate 32 4)⟩]

/-- Its text. -/
def sampleHeaderRaw : Bytes :=
  (Json.writeStruct recordHeaderFields (sampleHeader, [])).render Json.compact 0

theorem parseRecordHeader_sample : parseRecordHeader sampleHeaderRaw = .ok sampleHeader := by
  decide +kernel

/-- Three bytes in segments of two. -/
theorem segments_tile_sampleHeader : ∃ count segments, sampleHeader.segmentCount = .ok count ∧
    sampleHeader.segments = .ok segments ∧ segments.length = count.toNat ∧
    Laid 0 0 segments sampleHeader.plaintextLength.toNat ∧
    (∀ s ∈ segments, sampleHeader.Holds sampleHeader.spans s) ∧
    (storedDataSize segments).toNat = (segments.map fun s => s.storedLength.toNat).sum :=
  segments_tile parseRecordHeader_sample


end Mutant.Security
